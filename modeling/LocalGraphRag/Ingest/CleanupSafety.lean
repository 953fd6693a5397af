import LocalGraphRag.Ingest.Discipline

/-!
# Safety of the deletions

The vectors of a file go first, then its rows. A crash between the two leaves
rows without vectors and never vectors without rows, on the re-indexing path as
on the stale path.
-/

namespace LocalGraphRag.Ingest

open Python Relational LocalGraphRag.Graph Effects

section Programs
variable {lib : Builtins} {D : Discipline lib} {w : World} {p : Text}

/-- A Qdrant deletion of registered ids touches one file's points. -/
theorem deletePoints_step (hw : D.Inv w) {ids : List Text}
    (hids : ∀ id ∈ ids, id ∈ (w.view p).chunkIds) {c : Choice}
    (hc : D.guard w (.deletePoints ids) c) :
    D.Inv (w.step (.deletePoints ids) c).2 ∧
      SameElsewhere p w (w.step (.deletePoints ids) c).2 ∧
      (w.step (.deletePoints ids) c).2.store = w.store := by
  have hreach : ∀ s : Finset Text, s ⊆ ids.toFinset →
      SameElsewhere p w (w.deletePoints s) := by
    intro s hs
    exact deletePoints_elsewhere hw.tracked fun id hid => hids id (by simpa using hs hid)
  have hinv : ∀ s : Finset Text, s ⊆ ids.toFinset →
      D.Kept p ((w.deletePoints s).view p) → D.Inv (w.deletePoints s) := by
    intro s hs hkept
    refine hw.of_elsewhere (hreach s hs) ⟨?_, ?_, ?_, hkept⟩
    · rw [deletePoints_view]
      exact view_filter_points_tracked (hw p).tracked _ (Finset.filter_subset _ _)
    · rw [deletePoints_view]
      exact (hw p).rooted
    · rw [deletePoints_view]
      exact (hw p).cacheSound
  have hkept := D.drop p hc (hw p).kept
  obtain h | ⟨e, reached, h⟩ | ⟨e, h⟩ := step_deletePoints w ids c
  · rw [h] at hkept ⊢
    exact ⟨hinv _ subset_rfl hkept, hreach _ subset_rfl, rfl⟩
  · rw [h] at hkept ⊢
    exact ⟨hinv _ Finset.inter_subset_left hkept, hreach _ Finset.inter_subset_left, rfl⟩
  · rw [h]
    exact ⟨hw, SameElsewhere.refl p w, rfl⟩

/-- `_delete_vectors` leaves the file without points. -/
theorem deleteVectors_keeps (hw : D.Inv w) :
    Keeps D (deleteVectors p) (fun r w' => D.Inv w' ∧ SameElsewhere p w w' ∧
      w'.store = w.store ∧ (r = .ok () → (w'.view p).points = ∅)) w := by
  unfold deleteVectors
  refine safe_read hw rfl (fun e w₁ hw₁ hview hstore => ⟨hw₁, fun q _ => hview q, hstore, by simp⟩)
    fun prior c w₁ _ hr hw₁ hview hstore => ?_
  have hprior : prior = w.store.getChunksForFile p := step_getChunksForFile w (by rw [hr])
  have hmem : ∀ id, id ∈ prior ↔ id ∈ (w₁.view p).chunkIds := by
    intro id
    rw [hview p, hprior, GraphStore.mem_getChunksForFile, mem_view_chunkIds]
  split_ifs with hnil
  · refine ⟨hw₁, fun q _ => hview q, hstore, fun _ => ?_⟩
    have hempty : (w₁.view p).chunkIds = ∅ :=
      Finset.eq_empty_of_forall_notMem fun id hid => by
        simpa [hnil] using (hmem id).mpr hid
    have htracked := (hw₁ p).tracked
    rw [FileView.Tracked, hempty, Finset.subset_empty, FileView.pointIds,
      Finset.image_eq_empty] at htracked
    exact htracked
  · refine safe_perform fun c' hc' => ?_
    obtain ⟨hinv, helse, hst⟩ := deletePoints_step hw₁ (fun id hid => (hmem id).mp hid) hc'
    refine ⟨hinv, hinv, fun q hq => (helse q hq).trans (hview q), hst.trans hstore, ?_⟩
    intro hok
    obtain h | ⟨e, reached, h⟩ | ⟨e, h⟩ := step_deletePoints w₁ prior c'
    · rw [h, deletePoints_view]
      refine Finset.filter_eq_empty_iff.mpr fun x hx => ?_
      have hxid := (hw₁ p).tracked (Finset.mem_image_of_mem Point.id hx)
      simpa using (hmem x.id).mpr hxid
    · rw [h] at hok
      cases hok
    · rw [h] at hok
      cases hok

/-- `_cleanup_changed_file` leaves the file nothing but its cached replies. -/
theorem cleanupChangedFile_establishes (hw : D.Inv w) :
    Leaves D (cleanupChangedFile p)
      (fun _ w' => w'.view p = FileView.bare (w.view p).cached none) w := by
  unfold cleanupChangedFile
  refine safe_bind (safe_mono (deleteVectors_keeps (p := p) hw) ?_)
  rintro r w₁ ⟨hw₁, -, hstore, hpoints⟩
  cases r with
  | error e => exact ⟨hw₁, by simp⟩
  | ok _ =>
      rw [thenPost_ok]
      refine safe_write (fun e => ⟨hw₁, hw₁, by simp⟩) fun s' hs' => ?_
      have hcached : (w₁.view p).cached = (w.view p).cached := by
        simp only [World.view, hstore]
      have hview : ({ w₁ with store := s' } : World).view p =
          FileView.bare (w.view p).cached none := by
        rw [deleteFileData_view hs', hpoints rfl, FileView.cleared, hcached]
        rfl
      have hinv : D.Inv { w₁ with store := s' } := by
        apply hw₁.of_elsewhere (deleteFileData_elsewhere hs')
        rw [hview]
        exact Discipline.fileInv_bare (hw p).cacheSound (D.unmarked rfl)
      exact ⟨hinv, hinv, fun _ _ => hview⟩

/-- Only entities with these ids may be gone or refreshed; ids, names and
communities stay, and so do the summaries. -/
structure EntitiesKept (touched : Finset Text) (w w' : World) : Prop where
  untouched : ∀ e : EntityRow, e.id ∉ touched → (e ∈ w'.store.entities ↔ e ∈ w.store.entities)
  survivors : ∀ e ∈ w'.store.entities, ∃ x ∈ w.store.entities,
    e.id = x.id ∧ e.name = x.name ∧ e.community = x.community
  communities : w'.store.communities = w.store.communities

theorem EntitiesKept.of_store {w w' : World} (h : w'.store = w.store)
    (touched : Finset Text) : EntitiesKept touched w w' := by
  refine ⟨fun e _ => by rw [h], fun e he => ⟨e, h ▸ he, rfl, rfl, rfl⟩, by rw [h]⟩

theorem EntitiesKept.trans {touched : Finset Text} {w₁ w₂ w₃ : World}
    (h : EntitiesKept touched w₁ w₂) (h' : EntitiesKept touched w₂ w₃) :
    EntitiesKept touched w₁ w₃ where
  untouched e he := (h'.untouched e he).trans (h.untouched e he)
  survivors e he := by
    obtain ⟨x, hx, hid, hname, hcomm⟩ := h'.survivors e he
    obtain ⟨y, hy, hid', hname', hcomm'⟩ := h.survivors x hx
    exact ⟨y, hy, hid.trans hid', hname.trans hname', hcomm.trans hcomm'⟩
  communities := h'.communities.trans h.communities

theorem EntitiesKept.mono {touched touched' : Finset Text} {w₁ w₂ : World}
    (h : EntitiesKept touched w₁ w₂) (hsub : touched ⊆ touched') :
    EntitiesKept touched' w₁ w₂ where
  untouched e he := h.untouched e fun hmem => he (hsub hmem)
  survivors := h.survivors
  communities := h.communities

/-- A stale file loses everything, and no other file loses anything. -/
theorem removeStale_keeps (hw : D.Inv w) :
    Keeps D (removeStale () p) (fun r w' => D.Inv w' ∧ SameElsewhere p w w' ∧
      EntitiesKept (w.view p).entityIds w w' ∧
      (r = .ok () → w'.view p = FileView.bare ∅ none)) w := by
  unfold removeStale
  refine safe_bind (safe_mono (deleteVectors_keeps (p := p) hw) ?_)
  rintro r w₁ ⟨hw₁, helse, hstore, hpoints⟩
  have hkept := EntitiesKept.of_store hstore (w.view p).entityIds
  cases r with
  | error e => exact ⟨hw₁, helse, hkept, by simp⟩
  | ok _ =>
      rw [thenPost_ok]
      refine safe_write (fun e => ⟨hw₁, hw₁, helse, hkept, by simp⟩) fun s' hs' => ?_
      have hview : ({ w₁ with store := s' } : World).view p = FileView.bare ∅ none := by
        rw [purgeFile_view hs', hpoints rfl]
        rfl
      have helse' := purgeFile_elsewhere hs'
      have hinv : D.Inv { w₁ with store := s' } := by
        apply hw₁.of_elsewhere helse'
        rw [hview]
        exact Discipline.fileInv_bare (by simp [FileView.CacheSound, FileView.bare])
          (D.unmarked rfl)
      have ht := GraphStore.purgeFile_tables hs'
      have hkept' : EntitiesKept (w.view p).entityIds w₁ { w₁ with store := s' } := by
        refine ⟨fun e he => ?_, fun e he => ?_, by rw [ht]; rfl⟩
        · rw [ht]
          apply Tables.mem_deleteFileRows_entities_of_untouched p w₁.store.toTables
          rwa [hstore, fileEntityIds_eq]
        · rw [ht] at he
          exact Tables.exists_of_mem_deleteFileRows_entities p w₁.store.toTables he
      exact ⟨hinv, hinv, helse.trans helse', hkept.trans hkept', fun _ => hview⟩

/-- The stale phase empties the stale files and touches no other. -/
theorem stalePhase_keeps (hw : D.Inv w) (files unscanned : List Text) :
    Keeps D (stalePhase files unscanned) (fun r w' => D.Inv w' ∧
      (∀ q ∉ stalePaths w.store.listAllPaths files unscanned, w'.view q = w.view q) ∧
      EntitiesKept ((stalePaths w.store.listAllPaths files unscanned).biUnion fun q =>
        (w.view q).entityIds) w w' ∧
      (r = .ok () → ∀ q ∈ stalePaths w.store.listAllPaths files unscanned,
        w'.view q = FileView.bare ∅ none)) w := by
  unfold stalePhase
  refine safe_read hw rfl (fun e w₁ hw₁ hview hstore =>
      ⟨hw₁, fun q _ => hview q, EntitiesKept.of_store hstore _, by simp⟩)
    fun tracked c w₁ _ hr hw₁ hview hstore => ?_
  have htracked := step_listAllPaths w (c := c) (r := tracked) (by rw [hr])
  subst htracked
  set stale := stalePaths w.store.listAllPaths files unscanned
  set touched := stale.biUnion fun q => (w.view q).entityIds with htouched
  refine safe_foldlM
    (fun done _ w' => D.Inv w' ∧ (∀ q ∉ done, w'.view q = w.view q) ∧
      EntitiesKept touched w w' ∧ ∀ q ∈ done, w'.view q = FileView.bare ∅ none)
    (fun _ w' => D.Inv w' ∧ (∀ q ∉ stale, w'.view q = w.view q) ∧ EntitiesKept touched w w')
    ⟨hw₁, fun q _ => hview q, EntitiesKept.of_store hstore _, by simp⟩ ?_ ?_
  · rintro (e | _) w' hpost
    · exact ⟨hpost.1, hpost.2.1, hpost.2.2, by simp⟩
    · refine ⟨hpost.1, fun q hq => hpost.2.1 q fun h => hq (mem_orderBy.mp h), hpost.2.2.1, ?_⟩
      exact fun _ q hq => hpost.2.2.2 q (mem_orderBy.mpr hq)
  · rintro done p rest hsplit - w₂ ⟨hw₂, hother, hkept, hdone⟩
    have hmem : ∀ q ∈ done ++ [p], q ∈ stale := by
      intro q hq
      refine mem_orderBy.mp (hsplit ▸ ?_)
      rw [List.append_cons]
      exact List.mem_append_left _ hq
    have hp : p ∈ stale := hmem p (by simp)
    have hids : (w₂.view p).entityIds ⊆ touched := by
      by_cases hpd : p ∈ done
      · rw [hdone p hpd]
        exact Finset.empty_subset _
      · rw [hother p hpd, htouched]
        exact Finset.subset_biUnion_of_mem (fun q => (w.view q).entityIds) hp
    apply safe_mono (removeStale_keeps (p := p) hw₂)
    rintro r w₃ ⟨hw₃, helse, hkept', hempty⟩
    have hother₃ : ∀ q ∉ done ++ [p], w₃.view q = w.view q := by
      intro q hq
      rw [List.mem_append, List.mem_singleton, not_or] at hq
      rw [helse q hq.2, hother q hq.1]
    cases r with
    | error e =>
        exact ⟨hw₃, fun q hq => hother₃ q fun h => hq (hmem q h),
          hkept.trans (hkept'.mono hids)⟩
    | ok _ =>
        refine ⟨hw₃, hother₃, hkept.trans (hkept'.mono hids), fun q hq => ?_⟩
        obtain hq | hq := List.mem_append.mp hq
        · by_cases hqp : q = p
          · exact hqp ▸ hempty rfl
          · rw [helse q hqp, hdone q hq]
        · rw [List.mem_singleton.mp hq]
          exact hempty rfl

end Programs

end LocalGraphRag.Ingest
