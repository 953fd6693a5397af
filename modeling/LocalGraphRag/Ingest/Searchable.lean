import LocalGraphRag.Ingest.Ownership

/-!
# A fingerprinted file is searchable

A file with a fingerprint is skipped for as long as its content stays the same,
so its vectors should be complete. They are in every state of a lifetime just
when no Qdrant deletion ever reaches a point of a file that has a fingerprint.
Both deletions of the pipeline do: the vectors go first, and the fingerprint
with the rows in a later transaction.
-/

namespace LocalGraphRag.Ingest

open Python Relational LocalGraphRag.Graph Effects

/-- Every file with a fingerprint has exactly the points of its chunks. -/
def FingerprintsComplete (w : World) : Prop :=
  ∀ p, (∃ f ∈ w.store.fingerprints, f.filepath = p) → (w.view p).pointIds = (w.view p).chunkIds

/-- A Qdrant deletion reaches no point of a file that has a fingerprint. -/
def SparesFingerprinted (w : World) (o : Call) (c : Choice) : Prop :=
  ∀ ids, o = .deletePoints ids →
    ∀ q ∈ w.points, q ∈ (w.step o c).2.points ∨ w.store.getHash q.filepath = none

theorem fingerprintsComplete_iff {w : World} :
    FingerprintsComplete w ↔ ∀ p, (w.view p).fingerprint ≠ none →
      (w.view p).pointIds = (w.view p).chunkIds := by
  refine forall_congr' fun p => imp_congr_left ?_
  rw [view_fingerprint, ne_eq, GraphStore.getHash_eq_none_iff]
  push Not
  rfl

/-- A Qdrant deletion leaves every view with a part of its points. -/
theorem step_deletePoints_view {w : World} (ids : List Text) (c : Choice) (p : Text) :
    ∃ points ⊆ (w.view p).points,
      (w.step (.deletePoints ids) c).2.view p = { w.view p with points := points } := by
  obtain h | ⟨e, reached, h⟩ | ⟨e, h⟩ := step_deletePoints w ids c
  · rw [h, deletePoints_view]
    exact ⟨_, Finset.filter_subset _ _, rfl⟩
  · rw [h, deletePoints_view]
    exact ⟨_, Finset.filter_subset _ _, rfl⟩
  · rw [h]
    exact ⟨_, subset_rfl, rfl⟩

/-- A file whose points are all spared keeps its view. -/
theorem view_of_spared {w : World} {ids : List Text} {c : Choice} {p : Text}
    (hspared : ∀ q ∈ w.points, q.filepath = p → q ∈ (w.step (.deletePoints ids) c).2.points) :
    (w.step (.deletePoints ids) c).2.view p = w.view p := by
  obtain ⟨points, hsub, hview⟩ := step_deletePoints_view (w := w) ids c p
  have hpoints : points = (w.view p).points := by
    refine hsub.antisymm fun q hq => ?_
    obtain ⟨hq, hqp⟩ := (mem_view_points w p q).mp hq
    have hkept := (mem_view_points _ p q).mpr ⟨hspared q hq hqp, hqp⟩
    rwa [hview] at hkept
  rw [hview, hpoints]

variable (lib : Builtins)

/-- Under a guard that spares fingerprinted files these stay complete. -/
def Discipline.sparing : Discipline lib where
  guard := SparesFingerprinted
  ollama := ⟨fun _ _ => True, fun _ _ => True⟩
  SameRead := fun _ _ _ => True
  Uses := fun _ => True
  Kept := fun _ v => v.fingerprint ≠ none → v.pointIds = v.chunkIds
  generates := fun _ => trivial
  embeds := fun _ => trivial
  sameRead := fun _ _ => trivial
  unmarked := fun hnone h => absurd hnone h
  recache := fun _ h => h
  drop := by
    intro w ids c p hguard hkept hmarked
    obtain ⟨points, -, hview⟩ := step_deletePoints_view (w := w) ids c p
    have hfingerprint : w.store.getHash p ≠ none := by
      rw [hview] at hmarked
      exact hmarked
    rw [view_of_spared fun q hq hqp => ?_]
    · exact hkept hfingerprint
    · obtain h | h := hguard ids rfl q hq
      · exact h
      · exact absurd (hqp ▸ h) hfingerprint
  emptied := fun _ _ _ _ _ => rfl
  written := by
    intro cfg p b b' cached _ _ x _ _
    change x.points.toFinset.image Point.id =
      (chunkRows p (x.points.map Point.id)).toFinset.image ChunkRow.chunkId
    rw [chunkRows_image_chunkId]
    ext id
    simp only [Finset.mem_image, List.mem_toFinset, List.mem_map]

/-- A deletion that reaches a point of a fingerprinted file leaves the file
incomplete: the chunk id of the point is still registered. -/
theorem sparesFingerprinted_of_complete {D : Discipline lib} {w : World} (hw : D.Inv w)
    {o : Call} {c : Choice} (hafter : FingerprintsComplete (w.step o c).2) :
    SparesFingerprinted w o c := by
  rintro ids rfl q hq
  by_contra hnot
  rw [not_or] at hnot
  obtain ⟨hgone, hmarked⟩ := hnot
  obtain ⟨points, hsub, hview⟩ := step_deletePoints_view (w := w) ids c q.filepath
  have hcomplete := fingerprintsComplete_iff.mp hafter q.filepath
    (by rw [hview]; exact hmarked)
  have hreg := (hw q.filepath).tracked
    ((mem_view_pointIds w q.filepath q.id).mpr ⟨q, hq, rfl, rfl⟩)
  rw [hview] at hcomplete
  change points.image Point.id = (w.view q.filepath).chunkIds at hcomplete
  rw [← hcomplete] at hreg
  obtain ⟨x, hx, hxq⟩ := Finset.mem_image.mp hreg
  have hxw := ((mem_view_points w q.filepath x).mp (hsub hx)).1
  have hxq : x = q := w.points.eq_of_key hxw hq hxq
  refine hgone ((mem_view_points _ q.filepath q).mp ?_).1
  rw [hview]
  exact hxq ▸ hx

/-- Every state of a lifetime has complete fingerprinted files if and only if no
Qdrant deletion in it ever reaches a point of a file that has a fingerprint. -/
theorem fingerprints_complete_iff (runs : Runs) :
    (∀ w ∈ (lifetime lib runs).states World.step World.empty, FingerprintsComplete w) ↔
      Guarded SparesFingerprinted
        ((lifetime lib runs).transitions World.step World.empty) := by
  have hall := Discipline.inv_transitions (D := .unrestricted lib) runs
    (fun _ _ => trivial) (guarded_true _)
  constructor
  · intro hcomplete t ht
    refine sparesFingerprinted_of_complete lib (hall t ht).1 (hcomplete _ ?_)
    exact List.mem_cons_of_mem _ (List.mem_map_of_mem ht)
  · intro hguard w hw
    have hinv : (Discipline.sparing lib).Inv w := by
      obtain rfl | hw := List.mem_cons.mp hw
      · exact Discipline.inv_empty
      · obtain ⟨t, ht, rfl⟩ := List.mem_map.mp hw
        exact (Discipline.inv_transitions runs (fun _ _ => trivial) hguard t ht).2
    exact fingerprintsComplete_iff.mpr fun p => (hinv p).kept

/-- The sample file is edited, and the run that re-indexes it crashes between the
Qdrant deletion and `delete_file_data`. -/
def interruptedRuns : Runs := sampleRuns ++ [(sampleSettings,
  [.scan [samplePath] [], .done, .bytes [66], .done, .bytes [66], .vectors [[1]], .done,
    .done])]

def interruptedWorld : World :=
  (lifetime sampleBuiltins interruptedRuns).final World.step World.empty

/-- The fingerprint of the old content outlives its vectors, and once the edit is
reverted the file is skipped. -/
theorem fingerprint_outlives_vectors :
    Reachable sampleBuiltins interruptedWorld ∧
      ¬ FingerprintsComplete interruptedWorld ∧
      (run World.step (indexFile sampleBuiltins sampleSettings samplePath)
        [.bytes [97, 98, 99], .done] interruptedWorld).1 = some (.ok .skipped) := by
  refine ⟨⟨interruptedRuns, rfl⟩, fun h => ?_, by decide +kernel⟩
  have hpoints : (interruptedWorld.view samplePath).pointIds ≠
      (interruptedWorld.view samplePath).chunkIds := by decide +kernel
  exact hpoints (h samplePath (by decide +kernel))

end LocalGraphRag.Ingest
