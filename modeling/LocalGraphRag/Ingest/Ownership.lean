import LocalGraphRag.Ingest.CrashSafety

/-!
# Ownership

What a document owns can always be found again: its vectors through the chunk
ids registered for it, and the document itself through the three tables that
`list_all_paths` reads, wherever an earlier run crashed.
-/

namespace LocalGraphRag.Ingest

open Python Relational LocalGraphRag.Graph Effects

/-- The document has a row in some table, or a point. -/
def Owns (w : World) (p : Text) : Prop :=
  (∃ c ∈ w.store.chunks, c.filepath = p) ∨
    (∃ l ∈ w.store.chunkEntities, ∃ c ∈ w.store.chunks,
      c.chunkId = l.chunkId ∧ c.filepath = p) ∨
    (∃ r ∈ w.store.relationships, r.sourceDoc = p) ∨
    (∃ m ∈ w.store.entityMentions, m.sourceDoc = p) ∨
    (∃ f ∈ w.store.fingerprints, f.filepath = p) ∨
    (∃ c ∈ w.store.extractionCache, c.filepath = p) ∨
    ∃ q ∈ w.points, q.filepath = p

/-- A document whose view is bare owns nothing. -/
theorem not_owns_of_view {w : World} {p : Text} (h : w.view p = FileView.bare ∅ none) :
    ¬ Owns w p := by
  have hmem : ∀ {α : Type} {s : Finset α} {x : α}, s = ∅ → x ∉ s := by
    rintro α s x rfl
    exact Finset.notMem_empty x
  rintro (⟨c, hc, hcp⟩ | ⟨l, hl, hlc⟩ | ⟨r, hr, hrp⟩ | ⟨m, hm, hmp⟩ | ⟨f, hf, hfp⟩ |
    ⟨c, hc, hcp⟩ | ⟨q, hq, hqp⟩)
  · exact hmem (congrArg FileView.chunks h) ((mem_view_chunks w p c).mpr ⟨hc, hcp⟩)
  · exact hmem (congrArg FileView.links h) ((mem_view_links w p l).mpr ⟨hl, hlc⟩)
  · exact hmem (congrArg FileView.relationships h)
      ((mem_view_relationships w p r).mpr ⟨hr, hrp⟩)
  · exact hmem (congrArg FileView.mentions h) ((mem_view_mentions w p m).mpr ⟨hm, hmp⟩)
  · have hnone : w.store.getHash p = none := congrArg FileView.fingerprint h
    exact (GraphStore.getHash_eq_none_iff ..).mp hnone f hf hfp
  · exact hmem (congrArg FileView.cached h) ((mem_view_cached w p c).mpr ⟨hc, hcp⟩)
  · exact hmem (congrArg FileView.points h) ((mem_view_points w p q).mpr ⟨hq, hqp⟩)

theorem view_of_not_owns {w : World} {p : Text} (h : ¬ Owns w p) :
    w.view p = FileView.bare ∅ none := by
  simp only [Owns, not_or] at h
  obtain ⟨hc, hl, hr, hm, hf, hk, hq⟩ := h
  have hempty : ∀ {α : Type} {s : Finset α}, (∀ x, x ∉ s) → s = ∅ :=
    Finset.eq_empty_of_forall_notMem
  refine FileView.ext (hempty fun c h => ?_) (hempty fun q h => ?_) (hempty fun m h => ?_)
    (hempty fun r h => ?_) (hempty fun l h => ?_) (hempty fun c h => ?_) ?_
  · exact hc ⟨c, (mem_view_chunks w p c).mp h⟩
  · exact hq ⟨q, (mem_view_points w p q).mp h⟩
  · exact hm ⟨m, (mem_view_mentions w p m).mp h⟩
  · exact hr ⟨r, (mem_view_relationships w p r).mp h⟩
  · exact hl ⟨l, (mem_view_links w p l).mp h⟩
  · exact hk ⟨c, (mem_view_cached w p c).mp h⟩
  · exact (GraphStore.getHash_eq_none_iff ..).mpr fun f hfm hfp => hf ⟨f, hfm, hfp⟩

theorem owns_iff_view {w : World} {p : Text} :
    Owns w p ↔ w.view p ≠ FileView.bare ∅ none := by
  constructor
  · exact fun h hview => not_owns_of_view hview h
  · exact fun h => not_not.mp fun hn => h (view_of_not_owns hn)

/-- Whoever owns anything is listed: the other tables are rooted in chunks. -/
theorem owns_listed {lib : Builtins} {D : Discipline lib} {w : World} (hw : D.Inv w)
    {p : Text} (h : Owns w p) : p ∈ w.store.listAllPaths := by
  rw [GraphStore.mem_listAllPaths]
  have hroot : (w.view p).chunks.Nonempty → ∃ c ∈ w.store.chunks, c.filepath = p := by
    rintro ⟨c, hc⟩
    exact ⟨c, (mem_view_chunks w p c).mp hc⟩
  have hrooted : ¬ ((w.view p).mentions = ∅ ∧ (w.view p).relationships = ∅) →
      ∃ c ∈ w.store.chunks, c.filepath = p := by
    intro hne
    exact hroot (Finset.nonempty_iff_ne_empty.mpr fun hempty => hne ((hw p).rooted hempty))
  obtain hc | ⟨l, -, c, hc, -, hcp⟩ | ⟨r, hr⟩ | ⟨m, hm⟩ | hf | hk | ⟨q, hq, hqp⟩ := h
  · exact Or.inr (Or.inl hc)
  · exact Or.inr (Or.inl ⟨c, hc, hcp⟩)
  · refine Or.inr (Or.inl (hrooted fun hne => ?_))
    exact Finset.notMem_empty r (hne.2 ▸ (mem_view_relationships w p r).mpr hr)
  · refine Or.inr (Or.inl (hrooted fun hne => ?_))
    exact Finset.notMem_empty m (hne.1 ▸ (mem_view_mentions w p m).mpr hm)
  · exact Or.inl hf
  · exact Or.inr (Or.inr hk)
  · have hreg := (hw p).tracked ((mem_view_pointIds w p q.id).mpr ⟨q, hq, hqp, rfl⟩)
    obtain ⟨c, hc, hcp, -⟩ := (mem_view_chunkIds w p q.id).mp hreg
    exact Or.inr (Or.inl ⟨c, hc, hcp⟩)

section Sample

/-- Bytes are their own digest and their own text; a name occurs as a substring. -/
def sampleBuiltins : Builtins where
  sha256 := latin1
  decode := latin1
  nameOccurs := fun name t => t.tails.any name.isPrefixOf

/-- Settings under which a text is one chunk. -/
def sampleSettings : Settings where
  chunkDocument := fun _ t => .ok [(t, none)]
  gitHistoryDir := text "/git"
  maxEmbedChars := 100
  vectorSize := 1
  extract := ⟨text "model", text "Text: ", [], .null, [], text "8192", [], 100, 50⟩

def samplePath : Text := text "/docs/a"

/-- A scan that finds the sample file only, which then is indexed. -/
def indexChoices (b : Bytes) (id reply : Text) : List Choice :=
  [.scan [samplePath] [], .done, .bytes b, .done, .bytes b, .vectors [[1]], .done, .done,
    .ids [id], .done, .done, .done, .reply reply, .done, .done, .done, .done, .done]

def sampleReply : Text := text "\x7b\"entities\": [\x7b\"name\": \"abc\"\x7d]\x7d"

/-- The sample file indexed once, with a vector, an entity and a fingerprint. -/
def sampleRuns : Runs := [(sampleSettings, indexChoices [97, 98, 99] (text "u1") sampleReply)]

def sampleWorld : World :=
  (lifetime sampleBuiltins sampleRuns).final World.step World.empty

theorem sampleWorld_reachable : Reachable sampleBuiltins sampleWorld := ⟨sampleRuns, rfl⟩

end Sample

/-- No orphan vectors: in every reachable world every point is registered for its
file, so a `_delete_vectors` that returns leaves the file without points. -/
theorem points_registered (lib : Builtins) {w : World} (h : Reachable lib w) :
    (∀ q ∈ w.points, ∃ c ∈ w.store.chunks, c.chunkId = q.id ∧ c.filepath = q.filepath) ∧
      ∀ (p : Text) (cs : List Choice),
        (run World.step (deleteVectors p) cs w).1 = some (.ok ()) →
          ∀ q ∈ (run World.step (deleteVectors p) cs w).2.points, q.filepath ≠ p := by
  have hw := h.inv
  constructor
  · intro q hq
    have hreg := (hw q.filepath).tracked
      ((mem_view_pointIds w q.filepath q.id).mpr ⟨q, hq, rfl, rfl⟩)
    obtain ⟨c, hc, hcp, hcid⟩ := (mem_view_chunkIds w q.filepath q.id).mp hreg
    exact ⟨c, hc, hcid, hcp⟩
  · intro p cs hok q hq hqp
    obtain ⟨-, -, -, hempty⟩ :=
      ((deleteVectors_keeps (p := p) hw).run hw cs (guarded_true _)).2 _ hok
    have hmem := (mem_view_points _ p q).mpr ⟨hq, hqp⟩
    rw [hempty rfl] at hmem
    exact Finset.notMem_empty q hmem

theorem points_registered_sample :
    ∃ c ∈ sampleWorld.store.chunks, c.chunkId = text "u1" ∧ c.filepath = samplePath :=
  (points_registered sampleBuiltins sampleWorld_reachable).1
    ⟨text "u1", [1], text "abc", samplePath, 0, none⟩ (by decide +kernel)

/-- Deleted files are cleaned up: every owner is listed, and after a stale phase
that returns, whoever owns anything was collected or is under an unscanned path;
nobody else lost anything, and no entity changed that a purged document did not
touch. -/
theorem stale_phase_complete (lib : Builtins) {w : World} (h : Reachable lib w)
    (files unscanned : List Text) :
    (∀ p, Owns w p → p ∈ w.store.listAllPaths) ∧
      ∀ (cs : List Choice) (w' : World),
        run World.step (stalePhase files unscanned) cs w = (some (.ok ()), w') →
          (∀ p, Owns w' p → p ∈ files ∨ isUnderAnyRoot p unscanned = true) ∧
          (∀ p, p ∈ files ∨ isUnderAnyRoot p unscanned = true → w'.view p = w.view p) ∧
          EntitiesKept ((stalePaths w.store.listAllPaths files unscanned).biUnion fun p =>
            (w.view p).entityIds) w w' := by
  have hw := h.inv
  refine ⟨fun p hp => owns_listed hw hp, fun cs w' hrun => ?_⟩
  have hsafe := (stalePhase_keeps hw files unscanned).run hw cs (guarded_true _)
  rw [hrun] at hsafe
  obtain ⟨hw', hother, hkept, hempty⟩ := hsafe.2 _ rfl
  refine ⟨fun p hp => ?_, fun p hp => hother p fun hmem => ?_, hkept⟩
  · by_contra hnot
    rw [not_or] at hnot
    by_cases hstale : p ∈ stalePaths w.store.listAllPaths files unscanned
    · exact not_owns_of_view (hempty rfl p hstale) hp
    · have hlisted : p ∉ w.store.listAllPaths := by
        intro hmem
        refine hstale (Finset.mem_filter.mpr ⟨?_, by simpa using hnot.2⟩)
        exact Finset.mem_sdiff.mpr ⟨hmem, by simpa using hnot.1⟩
      rw [owns_iff_view, hother p hstale, ← owns_iff_view] at hp
      exact hlisted (owns_listed hw hp)
  · obtain ⟨hmem, hunder⟩ := Finset.mem_filter.mp hmem
    obtain hp | hp := hp
    · exact (Finset.mem_sdiff.mp hmem).2 (by simpa using hp)
    · rw [hp] at hunder
      cases hunder

theorem stale_phase_complete_sample :
    ¬ Owns (run World.step (stalePhase [] []) [.done, .done, .done, .done] sampleWorld).2
      samplePath := by
  intro howns
  have hok : (run World.step (stalePhase [] []) [.done, .done, .done, .done]
      sampleWorld).1 = some (.ok ()) := by decide +kernel
  have hcomplete := (stale_phase_complete sampleBuiltins sampleWorld_reachable [] []).2
    [.done, .done, .done, .done] _ (run_eq_of_result World.step hok)
  obtain h | h := hcomplete.1 samplePath howns
  · exact absurd h List.not_mem_nil
  · exact absurd h (by decide)

end LocalGraphRag.Ingest
