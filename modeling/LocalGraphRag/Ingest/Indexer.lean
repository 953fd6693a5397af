import LocalGraphRag.Effects.Prog
import LocalGraphRag.Graph.Extractor

/-!
# The indexer process

`_index_file` and `main` as programs over the calls that leave the process: the
reads of a file, the scan, each store method, each Qdrant call and each Ollama
call. `World.step` says what a call does under a choice of the environment.

## Implementation notes

The file system belongs to the environment. A read returns whatever bytes the
choice names, so edits, deletions and restorations may land between any two
calls, and a hash may be taken over a file that changes under it. A choice that
does not answer the call makes the call raise.
-/

namespace LocalGraphRag.Ingest

open Python Relational LocalGraphRag.Graph Effects

/-- An embedding; nothing here computes with its components. -/
abbrev Embedding := List ℚ

/-- A Qdrant point with its payload. -/
structure Point where
  id : Text
  vector : Embedding
  text : Text
  filepath : Text
  chunkIndex : Nat
  defName : Option Text
  deriving DecidableEq

/-- The exceptions of a run: one of the store, one of a call to the outside, or
one raised by the pipeline's own checks. -/
inductive Failure where
  | store (e : StoreError)
  | call
  | value
  deriving DecidableEq

/-- The write methods of the store, each one transaction. -/
inductive StoreWrite where
  | registerChunks (chunks : List ChunkRow)
  | upsertRelationships (relationships : List (Text × Text × Text × Text))
  | linkChunks (pairs : List (Text × Text))
  | deleteFileData (filepath : Text)
  | purgeFile (filepath : Text)
  | cacheExtraction (filepath : Text) (batchIndex : Nat) (promptSha256 result : Text)
  | upsertHash (filepath sha256 : Text)

def StoreWrite.apply : StoreWrite → GraphStore → Except StoreError GraphStore
  | registerChunks chunks => GraphStore.registerChunks chunks
  | upsertRelationships relationships => GraphStore.upsertRelationships relationships
  | linkChunks pairs => GraphStore.linkChunks pairs
  | deleteFileData filepath => GraphStore.deleteFileData filepath
  | purgeFile filepath => GraphStore.purgeFile filepath
  | cacheExtraction filepath batchIndex promptSha256 result =>
      GraphStore.cacheExtraction filepath batchIndex promptSha256 result
  | upsertHash filepath sha256 => GraphStore.upsertHash filepath sha256

/-- A call that leaves the indexer process. -/
inductive Call where
  | collectFiles
  | hashFile (path : Text)
  | readFile (path : Text)
  | getHash (filepath : Text)
  | getChunksForFile (filepath : Text)
  | getCachedExtraction (filepath : Text) (batchIndex : Nat) (promptSha256 : Text)
  | listAllPaths
  | write (w : StoreWrite)
  | upsertEntities (entities : List Entity) (sourceDoc : Text)
  | embedSlice (texts : List Text)
  | generate (payload : Json) (keepAlive : Text)
  | newPointIds (n : Nat)
  | deletePoints (ids : List Text)
  | upsertPoints (points : List Point)

/-- What a call returns. -/
abbrev Call.Ret : Call → Type
  | collectFiles => List Text × List Text
  | hashFile _ => Bytes
  | readFile _ => Bytes
  | getHash _ => Option Text
  | getChunksForFile _ => List Text
  | getCachedExtraction _ _ _ => Option Text
  | listAllPaths => Finset Text
  | write _ => Unit
  | upsertEntities _ _ => List Text
  | embedSlice _ => List Embedding
  | generate _ _ => Text
  | newPointIds _ => List Text
  | deletePoints _ => Unit
  | upsertPoints _ => Unit

/-- The environment's choice at a call. `applied` is a Qdrant call that raised
after reaching some of its points. -/
inductive Choice where
  | done
  | fault
  | applied (ids : Finset Text)
  | bytes (b : Bytes)
  | reply (r : Text)
  | vectors (v : List Embedding)
  | ids (l : List Text)
  | scan (files unscanned : List Text)

/-- The two stores. `hashed` is a history variable that no program reads: the
file hashed last, with the bytes that were hashed. -/
@[ext] structure World where
  store : GraphStore
  points : Table Point Point.id
  hashed : Option (Text × Bytes)

namespace World

def empty : World := ⟨GraphStore.empty, ∅, none⟩

/-- Remove the points with these ids. -/
def deletePoints (w : World) (ids : Finset Text) : World :=
  { w with points := w.points.deleteWhere fun p => p.id ∈ ids }

/-- Insert points, each replacing the one with its id. -/
def upsertPoints (w : World) (points : List Point) : World :=
  { w with points := w.points.insertAllOrReplace points }

/-- An id that neither store holds, as a new random UUID is. -/
def FreshId (w : World) (id : Text) : Prop :=
  (∀ c ∈ w.store.chunks, c.chunkId ≠ id) ∧ ∀ p ∈ w.points, p.id ≠ id

instance (w : World) (id : Text) : Decidable (w.FreshId id) :=
  inferInstanceAs (Decidable (_ ∧ _))

/-- The outcome of a transaction in the world: a failed one changes nothing. -/
def commit {α : Type} (w : World) :
    Except StoreError (α × GraphStore) → Except Failure α × World
  | .ok (a, s) => (.ok a, { w with store := s })
  | .error e => (.error (.store e), w)

/-- A store read: SQLite raises when the path cannot be bound. -/
def query {α : Type} (w : World) (parameters : List Text) (a : α) :
    Except Failure α × World :=
  match GraphStore.bindText parameters with
  | .ok () => (.ok a, w)
  | .error e => (.error (.store e), w)

/-- One call under one choice. -/
def step (w : World) : (o : Call) → Choice → Except Failure o.Ret × World
  | .collectFiles, .scan files unscanned => (.ok (files, unscanned), w)
  | .hashFile path, .bytes b => (.ok b, { w with hashed := some (path, b) })
  | .readFile _, .bytes b => (.ok b, w)
  | .getHash filepath, .done => w.query [filepath] (w.store.getHash filepath)
  | .getChunksForFile filepath, .done =>
      w.query [filepath] (w.store.getChunksForFile filepath)
  | .getCachedExtraction filepath batchIndex promptSha256, .done =>
      w.query [filepath, promptSha256]
        (w.store.getCachedExtraction filepath batchIndex promptSha256)
  | .listAllPaths, .done => (.ok w.store.listAllPaths, w)
  | .write op, .done => w.commit ((op.apply w.store).map fun s => ((), s))
  | .upsertEntities entities sourceDoc, .done =>
      w.commit (w.store.upsertEntities entities sourceDoc)
  | .embedSlice _, .vectors v => (.ok v, w)
  | .generate _ _, .reply r => (.ok r, w)
  | .newPointIds n, .ids l =>
      if l.length = n ∧ l.Nodup ∧ ∀ id ∈ l, w.FreshId id then (.ok l, w)
      else (.error .call, w)
  | .deletePoints ids, .done => (.ok (), w.deletePoints ids.toFinset)
  | .deletePoints ids, .applied reached =>
      (.error .call, w.deletePoints (ids.toFinset ∩ reached))
  | .upsertPoints points, .done => (.ok (), w.upsertPoints points)
  | .upsertPoints points, .applied reached =>
      (.error .call, w.upsertPoints (points.filter fun p => p.id ∈ reached))
  | _, _ => (.error .call, w)

end World

/-- What the language's library computes: the SHA-256 hex digest, the UTF-8
decoding that ignores errors, and whether a name occurs in a text between word
boundaries, ignoring case. -/
structure Builtins where
  sha256 : Bytes → Text
  decode : Bytes → Text
  nameOccurs : Text → Text → Bool

/-- The settings of one run. -/
structure Settings where
  chunkDocument : Text → Text → Except Failure (List (Text × Option Text))
  gitHistoryDir : Text
  maxEmbedChars : Nat
  vectorSize : Nat
  extract : ExtractSettings

/-- A program of the indexer process. -/
abbrev Indexer := Prog Call Call.Ret Failure

/-- What `_index_file` returns. -/
inductive Outcome where
  | indexed
  | skipped
  | failed
  deriving DecidableEq

/-- An outcome with what the run had in hand when it logged and returned. -/
inductive Report where
  | indexed (currentHash content : Text) (vectors : List Embedding) (pointIds : List Text)
      (result : ExtractionResult)
  | skipped
  | failed
  deriving DecidableEq

def Report.outcome : Report → Outcome
  | indexed .. => .indexed
  | skipped => .skipped
  | failed => .failed

section Programs
variable (lib : Builtins) (cfg : Settings)

/-- `_hash_file`. -/
def hashFile (path : Text) : Indexer (Option Text) :=
  (do
    let b ← Prog.perform (Call.hashFile path)
    return some (lib.sha256 b)).orElse fun _ => return none

/-- `_read_file`. -/
def readFile (path : Text) : Indexer (Option Text) :=
  (do
    let b ← Prog.perform (Call.readFile path)
    return some (lib.decode b)).orElse fun _ => return none

/-- `_delete_vectors`. -/
def deleteVectors (filepath : Text) : Indexer Unit := do
  let priorIds ← Prog.perform (Call.getChunksForFile filepath)
  if priorIds = [] then return ()
  else Prog.perform (Call.deletePoints priorIds)

/-- `_cleanup_changed_file`: the vectors first, then the rows and the fingerprint. -/
def cleanupChangedFile (filepath : Text) : Indexer Unit := do
  deleteVectors filepath
  Prog.perform (Call.write (.deleteFileData filepath))

/-- `_chunk_file`. -/
def chunkFile (path content : Text) : Except Failure (List (Text × Option Text)) := do
  let chunked ← cfg.chunkDocument path content
  return (chunked.map fun c => (strip c.1, c.2)).filter fun c => c.1 ≠ []

/-- `_prepare_text`. -/
def prepareText (content : Text) : Except Failure Text :=
  if strip content = [] then .error .value
  else .ok ((strip content).take cfg.maxEmbedChars)

/-- One request of `embed_batch`, with its checks of the response. -/
def embedRequest (vectors : List Embedding) (batch : List Text) :
    Indexer (List Embedding) := do
  let embeddings ← Prog.perform (Call.embedSlice batch)
  if embeddings.length ≠ batch.length then Prog.fail .value
  else if ∃ v ∈ embeddings, v.length ≠ cfg.vectorSize then Prog.fail .value
  else return vectors ++ embeddings

/-- `embed_batch`, in requests of 64 texts. -/
def embedBatch (texts : List Text) : Indexer (List Embedding) := do
  let prepared ← Prog.ofExcept (texts.mapM (prepareText cfg))
  (prepared.toChunks 64).foldlM (embedRequest cfg) []

/-- The zip of `_build_points` with its `strict=True`, for given ids. -/
def buildPoints (filepath : Text) (chunked : List (Text × Option Text))
    (vectors : List Embedding) (ids : List Text) : Except Failure (List Point) :=
  if chunked.length ≠ vectors.length then .error .value
  else .ok ((ids.zip (chunked.zip vectors)).zipIdx.map fun x =>
    ⟨x.1.1, x.1.2.2, x.1.2.1.1, filepath, x.2, x.1.2.1.2⟩)

/-- The pairs of one entity in `_match_entity_chunks`. -/
def entityLinks (chunks chunkIds : List Text) (e : Entity × Text) :
    Except Failure (List (Text × Text)) :=
  let name := strip e.1.name
  if name.length < 3 then .ok []
  else if chunkIds.length ≠ chunks.length then .error .value
  else .ok (((chunkIds.zip chunks).filter fun c => lib.nameOccurs name c.2).map
    fun c => (c.1, e.2))

/-- `_match_entity_chunks`. -/
def matchEntityChunks (chunks chunkIds : List Text) (entities : List Entity)
    (entityIds : List Text) : Except Failure (List (Text × Text)) :=
  if entities.length ≠ entityIds.length then .error .value
  else ((entities.zip entityIds).mapM (entityLinks lib chunks chunkIds)).map List.flatten

/-- `_load_or_extract_batch`. -/
def loadOrExtractBatch (filepath batchText : Text) (batchIndex : Nat) :
    Indexer RawResult := do
  let payload := batchPayload cfg.extract batchText
  let digest := requestDigest lib.sha256 payload
  let cached ← Prog.perform (Call.getCachedExtraction filepath batchIndex digest)
  match cached with
  | some response => return parseExtractionResponse cfg.extract.recursionLimit response
  | none =>
      let response ← Prog.perform (Call.generate payload cfg.extract.keepAlive)
      Prog.perform (Call.write (.cacheExtraction filepath batchIndex digest response))
      return parseExtractionResponse cfg.extract.recursionLimit response

/-- One round of the loop of `extract_entities_for_file`; a failed batch counts
as empty. -/
def extractBatch (filepath : Text) (acc : List (Option RawResult))
    (batch : Text × Nat) : Indexer (List (Option RawResult)) := do
  let result ← (do
    let raw ← loadOrExtractBatch lib cfg filepath batch.1 batch.2
    return some raw).orElse fun _ => return none
  return acc ++ [result]

/-- The result for the outcomes of all batches, `none` being a failed one. -/
def combineBatches (results : List (Option RawResult)) : ExtractionResult :=
  normalizeExtractionResult (results.flatMap fun r => (r.map RawResult.entities).getD [])
    (results.flatMap fun r => (r.map RawResult.relationships).getD [])
    (results.any Option.isNone)

/-- The loop of `extract_entities_for_file` over its numbered batches. -/
def extractBatches (filepath : Text) (batches : List Text) :
    Indexer (List (Option RawResult)) :=
  batches.zipIdx.foldlM (extractBatch lib cfg filepath) []

/-- `extract_entities_for_file`. -/
def extractEntitiesForFile (chunks : List Text) (filepath : Text) :
    Indexer ExtractionResult :=
  if chunks = [] then return .empty
  else do
    let results ← extractBatches lib cfg filepath
      (buildBatches cfg.extract.batchTokens chunks)
    return combineBatches results

/-- The choice of `_write_index_data`: git history is searched, never extracted. -/
def extractUnlessHistory (chunks : List Text) (filepath : Text) :
    Indexer ExtractionResult :=
  if isRelativeTo filepath cfg.gitHistoryDir then return .empty
  else extractEntitiesForFile lib cfg chunks filepath

/-- The rows `_write_index_data` gives to `upsert_relationships`. -/
def relationshipRows (filepath : Text) (relationships : List Relationship) :
    List (Text × Text × Text × Text) :=
  relationships.map fun r => (slugify r.source, slugify r.target, r.label, filepath)

/-- The rows `_write_index_data` gives to `register_chunks`. -/
def chunkRows (filepath : Text) (pointIds : List Text) : List ChunkRow :=
  pointIds.zipIdx.map fun p => ⟨p.1, filepath, p.2⟩

/-- `_write_index_data`: the ids before the vectors, the fingerprint last. -/
def writeIndexData (filepath : Text) (chunks : List Text) (points : List Point)
    (currentHash : Text) : Indexer ExtractionResult := do
  let pointIds := points.map Point.id
  Prog.perform (Call.write (.registerChunks (chunkRows filepath pointIds)))
  Prog.perform (Call.upsertPoints points)
  let result ← extractUnlessHistory lib cfg chunks filepath
  let entityIds ← Prog.perform (Call.upsertEntities result.entities filepath)
  Prog.perform (Call.write
    (.upsertRelationships (relationshipRows filepath result.relationships)))
  let pairs ← Prog.ofExcept
    (matchEntityChunks lib chunks pointIds result.entities entityIds)
  Prog.perform (Call.write (.linkChunks pairs))
  if result.hadFailure then return result
  else
    Prog.perform (Call.write (.upsertHash filepath currentHash))
    return result

/-- The body of `_index_file`: the new version is chunked and embedded before
the old one is deleted. -/
def indexFileReport (filepath : Text) : Indexer Report := do
  let some currentHash ← hashFile lib filepath | return .failed
  let stored ← Prog.perform (Call.getHash filepath)
  if stored = some currentHash then return .skipped
  else
    let some content ← readFile lib filepath | return .failed
    let chunked ← Prog.ofExcept (chunkFile cfg filepath content)
    if chunked = [] then
      cleanupChangedFile filepath
      Prog.perform (Call.write (.upsertHash filepath currentHash))
      return .skipped
    else
      let chunks := chunked.map Prod.fst
      let vectors ← embedBatch cfg chunks
      cleanupChangedFile filepath
      let ids ← Prog.perform (Call.newPointIds chunked.length)
      let points ← Prog.ofExcept (buildPoints filepath chunked vectors ids)
      let result ← writeIndexData lib cfg filepath chunks points currentHash
      return .indexed currentHash content vectors ids result

/-- `_index_file`. -/
def indexFile (filepath : Text) : Indexer Outcome := do
  let report ← indexFileReport lib cfg filepath
  return report.outcome

/-- The tracked files that `main` removes. -/
def stalePaths (tracked : Finset Text) (files unscanned : List Text) : Finset Text :=
  (tracked \ files.toFinset).filter fun p => isUnderAnyRoot p unscanned = false

/-- One round of the stale phase. -/
def removeStale (_ : Unit) (filepath : Text) : Indexer Unit := do
  deleteVectors filepath
  Prog.perform (Call.write (.purgeFile filepath))

/-- The stale phase of `main`, after the scan. -/
def stalePhase (files unscanned : List Text) : Indexer Unit := do
  let tracked ← Prog.perform Call.listAllPaths
  (orderBy (stalePaths tracked files unscanned)).foldlM removeStale ()

/-- One round of the indexing loop of `main`: any exception is a failed file. -/
def indexOne (outcomes : List Outcome) (filepath : Text) : Indexer (List Outcome) := do
  let outcome ← (indexFile lib cfg filepath).orElse fun _ => return .failed
  return outcomes ++ [outcome]

/-- `main`; the scan is a call, its files given by their normalised paths. -/
def main : Indexer (List Outcome) := do
  let (files, unscanned) ← Prog.perform Call.collectFiles
  stalePhase files unscanned
  files.foldlM (indexOne lib cfg) []

end Programs

end LocalGraphRag.Ingest
