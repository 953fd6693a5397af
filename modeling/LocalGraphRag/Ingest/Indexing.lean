import LocalGraphRag.Ingest.FileWrites

/-!
# What indexing a content writes

An `Indexing` is one way the pipeline can turn a content into stored data: the
chunks, vectors, ids, extraction result and links in hand, each with the proof
that it comes from the step before. What Ollama answers is a relation, so the
same structure serves a model that answers at will, one that is a function of
the request, and the answers that were given in one lifetime.
-/

namespace LocalGraphRag.Ingest

open Python Relational LocalGraphRag.Graph Effects

/-- What Ollama may answer: replies to requests, and embeddings of texts. -/
structure Ollama where
  Generates : Json → Text → Prop
  Embeds : List Text → List Embedding → Prop

section Extraction
variable (lib : Builtins) (ollama : Ollama)

/-- A reply was given to a request with this digest. -/
def Answered (digest reply : Text) : Prop :=
  ∃ payload, requestDigest lib.sha256 payload = digest ∧ ollama.Generates payload reply

/-- The outcome of a batch: it failed, or its request was answered. -/
def BatchOutcome (cfg : Settings) (batch : Text) (outcome : Option RawResult) : Prop :=
  ∀ raw ∈ outcome, ∃ reply,
    Answered lib ollama (requestDigest lib.sha256 (batchPayload cfg.extract batch)) reply ∧
      raw = parseExtractionResponse cfg.extract.recursionLimit reply

/-- The vectors of `embed_batch` are the answers to its requests, in order. -/
def Embedded (cfg : Settings) (texts : List Text) (vectors : List Embedding) : Prop :=
  ∃ prepared answers, texts.mapM (prepareText cfg) = .ok prepared ∧
    List.Forall₂ ollama.Embeds (prepared.toChunks 64) answers ∧ vectors = answers.flatten

/-- The extraction results that the answers allow for a file's chunks. -/
def Extracted (cfg : Settings) (filepath : Text) (chunks : List Text)
    (result : ExtractionResult) : Prop :=
  (isRelativeTo filepath cfg.gitHistoryDir = true ∧ result = .empty) ∨
    (isRelativeTo filepath cfg.gitHistoryDir = false ∧
      ((chunks = [] ∧ result = .empty) ∨
        ∃ outcomes, List.Forall₂ (BatchOutcome lib ollama cfg)
            (buildBatches cfg.extract.batchTokens chunks) outcomes ∧
          result = combineBatches outcomes))

/-- An extraction result names every entity once. -/
theorem Extracted.slugs_nodup {lib : Builtins} {ollama : Ollama}
    {cfg : Settings} {filepath : Text} {chunks : List Text} {result : ExtractionResult}
    (h : Extracted lib ollama cfg filepath chunks result) :
    (result.entities.map GraphStore.entitySlug).Nodup := by
  obtain ⟨-, rfl⟩ | ⟨-, ⟨-, rfl⟩ | ⟨outcomes, -, rfl⟩⟩ := h
  · exact List.nodup_nil
  · exact List.nodup_nil
  · have hslugs := normalizeEntities_slugs
      (outcomes.flatMap fun r => (r.map RawResult.entities).getD [])
    exact hslugs ▸ entitiesBySlug_nodup _

end Extraction

/-- One way of indexing a content as the data of a file. -/
structure Indexing (lib : Builtins) (ollama : Ollama) (cfg : Settings)
    (filepath content : Text) where
  chunked : List (Text × Option Text)
  vectors : List Embedding
  ids : List Text
  points : List Point
  result : ExtractionResult
  pairs : List (Text × Text)
  chunked_eq : chunkFile cfg filepath content = .ok chunked
  chunked_ne : chunked ≠ []
  embedded : Embedded ollama cfg (chunked.map Prod.fst) vectors
  ids_nodup : ids.Nodup
  ids_length : ids.length = chunked.length
  points_eq : buildPoints filepath chunked vectors ids = .ok points
  extracted : Extracted lib ollama cfg filepath (chunked.map Prod.fst) result
  pairs_eq : matchEntityChunks lib (chunked.map Prod.fst) ids result.entities
    (result.entities.map GraphStore.entitySlug) = .ok pairs

section Points

/-- The points of `_build_points` carry the ids in order, each with its index. -/
theorem mem_buildPoints {filepath : Text} {chunked : List (Text × Option Text)}
    {vectors : List Embedding} {ids : List Text} {points : List Point}
    (h : buildPoints filepath chunked vectors ids = .ok points) (q : Point) :
    q ∈ points ↔ q.filepath = filepath ∧ ids[q.chunkIndex]? = some q.id ∧
      chunked[q.chunkIndex]? = some (q.text, q.defName) ∧
      vectors[q.chunkIndex]? = some q.vector := by
  unfold buildPoints at h
  split_ifs at h with hlen
  cases h
  simp only [List.mem_map, Prod.exists, List.mem_zipIdx_iff_getElem?,
    List.getElem?_zip_eq_some]
  constructor
  · rintro ⟨id, text, defName, v, i, ⟨hid, hc, hv⟩, rfl⟩
    exact ⟨rfl, hid, hc, hv⟩
  · rintro ⟨rfl, hid, hc, hv⟩
    exact ⟨_, _, _, _, _, ⟨hid, hc, hv⟩, rfl⟩

theorem buildPoints_length {filepath : Text} {chunked : List (Text × Option Text)}
    {vectors : List Embedding} {ids : List Text} {points : List Point}
    (h : buildPoints filepath chunked vectors ids = .ok points) :
    chunked.length = vectors.length := by
  unfold buildPoints at h
  split_ifs at h with hlen
  exact not_not.mp hlen

theorem buildPoints_ids {filepath : Text} {chunked : List (Text × Option Text)}
    {vectors : List Embedding} {ids : List Text} {points : List Point}
    (h : buildPoints filepath chunked vectors ids = .ok points)
    (hids : ids.length = chunked.length) : points.map Point.id = ids := by
  have hlen := buildPoints_length h
  unfold buildPoints at h
  split_ifs at h
  cases h
  rw [List.map_map]
  change (((ids.zip (chunked.zip vectors)).zipIdx).map fun x => x.1.1) = ids
  have hfst : ((ids.zip (chunked.zip vectors)).zipIdx.map Prod.fst).map Prod.fst = ids := by
    rw [List.zipIdx_map_fst]
    exact List.map_fst_zip (by rw [List.length_zip, hids, hlen, Nat.min_self])
  rwa [List.map_map] at hfst

end Points

section Links
variable (lib : Builtins)

/-- The pairs of one entity, the zips being of equal length. -/
def matchedPairs (chunks chunkIds : List Text) (e : Entity × Text) : List (Text × Text) :=
  if (strip e.1.name).length < 3 then []
  else ((chunkIds.zip chunks).filter fun c => lib.nameOccurs (strip e.1.name) c.2).map
    fun c => (c.1, e.2)

/-- With as many ids as chunks and entities the matching does not raise. -/
theorem matchEntityChunks_eq {chunks chunkIds : List Text} {entities : List Entity}
    {entityIds : List Text} (hids : chunkIds.length = chunks.length)
    (hentities : entities.length = entityIds.length) :
    matchEntityChunks lib chunks chunkIds entities entityIds =
      .ok ((entities.zip entityIds).flatMap (matchedPairs lib chunks chunkIds)) := by
  have hlinks : entityLinks lib chunks chunkIds = fun e =>
      (pure (matchedPairs lib chunks chunkIds e) : Except Failure _) := by
    funext e
    simp only [entityLinks, matchedPairs, hids, ne_eq, not_true_eq_false, if_false]
    split_ifs <;> rfl
  simp only [matchEntityChunks, hentities, ne_eq, not_true_eq_false, if_false, hlinks,
    List.mapM_pure]
  rw [List.flatMap]
  rfl

theorem mem_matchedPairs {chunks chunkIds : List Text} {e : Entity × Text}
    {x : Text × Text} :
    x ∈ matchedPairs lib chunks chunkIds e ↔ x.2 = e.2 ∧ 3 ≤ (strip e.1.name).length ∧
      ∃ (i : Nat) (t : Text), chunkIds[i]? = some x.1 ∧ chunks[i]? = some t ∧
        lib.nameOccurs (strip e.1.name) t = true := by
  unfold matchedPairs
  split_ifs with h
  · simp only [List.not_mem_nil, false_iff, not_and]
    omega
  · have hzip : ∀ id t, (id, t) ∈ chunkIds.zip chunks ↔
        ∃ i : Nat, chunkIds[i]? = some id ∧ chunks[i]? = some t := by
      intro id t
      simp only [List.mem_iff_getElem?, List.getElem?_zip_eq_some]
    simp only [List.mem_map, List.mem_filter, Prod.exists, hzip]
    constructor
    · rintro ⟨id, t, ⟨⟨i, hid, ht⟩, hocc⟩, rfl⟩
      exact ⟨rfl, by omega, i, t, hid, ht, hocc⟩
    · rintro ⟨hx, -, i, t, hid, ht, hocc⟩
      exact ⟨x.1, t, ⟨⟨i, hid, ht⟩, hocc⟩, Prod.ext rfl hx.symm⟩

/-- A pair links one of the chunks to the entity it was matched for. -/
theorem ends_of_mem_matchedPairs {chunks chunkIds : List Text} {e : Entity × Text}
    {x : Text × Text} (h : x ∈ matchedPairs lib chunks chunkIds e) :
    x.1 ∈ chunkIds ∧ x.2 = e.2 := by
  obtain ⟨hentity, -, i, t, hi, -⟩ := (mem_matchedPairs lib).mp h
  exact ⟨List.mem_of_getElem? hi, hentity⟩

/-- A chunk is linked to an entity when the entity's name occurs in it. -/
theorem mem_matchEntityChunks {chunks chunkIds : List Text} {entities : List Entity}
    {entityIds : List Text} {pairs : List (Text × Text)}
    (hids : chunkIds.length = chunks.length)
    (h : matchEntityChunks lib chunks chunkIds entities entityIds = .ok pairs)
    (x : Text × Text) :
    x ∈ pairs ↔ ∃ e ∈ entities.zip entityIds, x ∈ matchedPairs lib chunks chunkIds e := by
  have hentities : entities.length = entityIds.length := by
    unfold matchEntityChunks at h
    split_ifs at h with hne
    exact not_not.mp hne
  rw [matchEntityChunks_eq lib hids hentities] at h
  cases h
  exact List.mem_flatMap

end Links

namespace Indexing

variable {lib : Builtins} {ollama : Ollama} {cfg : Settings}
  {filepath content : Text} (x : Indexing lib ollama cfg filepath content)

/-- The stored data of the file after this indexing. -/
def view (cached : Finset CacheRow) (fingerprint : Option Text) : FileView :=
  writtenView filepath x.points x.result x.pairs cached fingerprint

end Indexing

end LocalGraphRag.Ingest
