import LocalGraphRag.Ingest.PointSources
import LocalGraphRag.Rag.QueryGraphRag

/-!
# The sources of a prompt

The indexer fills the collection and the questions read it. What a prompt shows was thus read
by the indexer from a file that it had found, and once a run of it has finished, nothing more
is shown of the files that were gone.

## Implementation notes

The payload of a point is what `_build_points` writes, and the vector search and the scroll
return it unchanged.
-/

namespace LocalGraphRag.Rag

open LocalGraphRag.Python LocalGraphRag.Sequences LocalGraphRag.Effects
open LocalGraphRag.Ingest (Point World Runs Choice Outcome Sourced recorded)

/-- A point as it is returned, with its payload. -/
def StoredPoint.ofPoint (q : Point) : StoredPoint :=
  ⟨q.id, some q.text, some q.filepath, some (q.chunkIndex : ℤ), q.defName⟩

/-- The questions read what the indexer has written. -/
def Holds (c : Collection) (w : World) : Prop :=
  ∀ p, p ∈ c.points ↔ ∃ q ∈ w.points, StoredPoint.ofPoint q = p

namespace QueryWorld
variable {ε α σ : Type} {w : QueryWorld ε α σ} {question : Text} {mode : GraphMode}

/-- A local context comes from local retrieval, at once or in place of a global one. -/
theorem localRetrieve_of_retrieve {global : Bool} {paths : Option (List Text)} {ctx : LocalContext}
    (h : w.retrieve question global paths = .ok (.local ctx)) :
    w.localRetrieve question paths = .ok (.local ctx) := by
  rw [retrieve] at h
  split_ifs at h
  · obtain ⟨-, -, h⟩ := except_bind_eq_ok_iff.mp h
    obtain ⟨found, -, h⟩ := except_bind_eq_ok_iff.mp h
    split_ifs at h
    · exact h
    · cases h
  · exact h

theorem scope_ne_nil {paths : List Text} (h : w.scope question mode = .ok (some paths)) :
    paths ≠ [] := by
  rw [scope] at h
  split_ifs at h
  · cases h
  · exact projectPaths_ne_nil (projectPaths_eq_some h)

/-- A text in a local context is that of a point, in a file of the scope. -/
theorem exists_point_of_context (hfilters : w.Filters) {ctx : LocalContext}
    (h : w.buildContext question mode = .ok (.local ctx)) {world : World}
    (hholds : Holds w.collection world) {content : Text} (hcontent : content ∈ ctx.chunkTexts) :
    ∃ q ∈ world.points, q.text = content ∧
      ∀ paths, w.scope question mode = .ok (some paths) → q.filepath ∈ paths := by
  obtain ⟨found, hfound, h⟩ := except_bind_eq_ok_iff.mp h
  obtain ⟨global, -, h⟩ := except_bind_eq_ok_iff.mp h
  obtain ⟨vector, hits, hhits, hctx⟩ := localRetrieve_eq_ok (localRetrieve_of_retrieve h)
  cases hctx
  obtain ⟨p, hp, htext, hscope⟩ := mem_chunkTexts_inScope (hfilters _ _ _ _ hhits) hcontent
  obtain ⟨q, hq, rfl⟩ := (hholds p).mp hp
  refine ⟨q, hq, Option.some.inj htext, fun paths hpaths => ?_⟩
  cases hfound.symm.trans hpaths
  obtain ⟨file, hfile, hmem⟩ := exists_filepath_of_inScope (scope_ne_nil hpaths) hscope
  cases hfile
  exact hmem

/-- The sample file's point, and a search that returns it. -/
def sampleQueries : QueryWorld Unit Unit ℕ where
  lowering := asciiLowering
  isWord := isIdentifierChar
  historyDir := [⟨text "git", by decide⟩]
  config := .error ()
  store := Ingest.sampleWorld.store
  reads _ := .ok ()
  collection := ⟨[⟨text "u1", some (text "abc"), some Ingest.samplePath, some 0, none⟩],
    List.pairwise_singleton ..⟩
  listAllPaths := [Ingest.samplePath]
  mem_listAllPaths := by
    have hpaths : Ingest.sampleWorld.store.listAllPaths = {Ingest.samplePath} := by
      decide +kernel
    simp [hpaths]
  generate _ := .error ()
  embed _ := .ok [()]
  queryPoints _ _ paths := .ok ([⟨text "u1", some (text "abc"), some Ingest.samplePath, some 0,
    none⟩].filter (inScope paths))
  scroll := .ok ()
  scoring := ⟨fun _ _ => 0, mergeArgsort⟩
  entityRetrievalK := 5
  entityNeighborhoodHops := 2
  communityRetrievalN := 5

theorem filters_sampleQueries : sampleQueries.Filters := by
  intro vector k paths hits h p hp
  obtain rfl := Except.ok.inj h
  exact List.mem_filter.mp hp

theorem holds_sampleQueries {world : World}
    (h : world.points.rows = {⟨text "u1", [1], text "abc", Ingest.samplePath, 0, none⟩}) :
    Holds sampleQueries.collection world := by
  intro p
  have hmem : ∀ q, q ∈ world.points ↔ q = ⟨text "u1", [1], text "abc", Ingest.samplePath, 0,
      none⟩ := by
    intro q
    rw [← Relational.Table.mem_rows, h, Finset.mem_singleton]
  simp only [hmem, exists_eq_left]
  exact List.mem_singleton.trans eq_comm

/-- A question that the sample file is retrieved for. -/
theorem exists_context_sampleQueries : ∃ ctx,
    sampleQueries.buildContext (text "abc?") .local = .ok (.local ctx) ∧
      ctx.chunkTexts = [text "abc"] := by
  have hlocal : sampleQueries.buildContext (text "abc?") .local =
      sampleQueries.localRetrieve (text "abc?") none := rfl
  have hscroll : sampleQueries.scroll = .ok () := rfl
  rw [hlocal, localRetrieve]
  simp only [hscroll, ite_self]
  exact ⟨_, rfl, by decide +kernel⟩

def otherPath : Text := text "/docs/b"

/-- The sample file and another one, both indexed. -/
def twoFileRuns : Runs :=
  [(Ingest.sampleSettings, [.scan [Ingest.samplePath, otherPath] [], .done] ++
    (Ingest.indexChoices [97, 98, 99] (text "u1") Ingest.sampleReply).drop 2 ++
    (Ingest.indexChoices [100, 101] (text "u2") Ingest.sampleReply).drop 2)]

def twoFileWorld : World :=
  (Ingest.lifetime Ingest.sampleBuiltins twoFileRuns).final World.step World.empty

/-- A second run, which does not find the other file any more. -/
def deletionChoices : List Choice :=
  [.scan [Ingest.samplePath] [], .done, .done, .done, .done, .bytes [97, 98, 99], .done]

def afterDeletion : World :=
  (run World.step (Ingest.main Ingest.sampleBuiltins Ingest.sampleSettings) deletionChoices
    twoFileWorld).2

end QueryWorld

end LocalGraphRag.Rag
