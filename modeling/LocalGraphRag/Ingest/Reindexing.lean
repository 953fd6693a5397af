import LocalGraphRag.Ingest.Searchable
import Mathlib.Data.List.GetD

/-!
# Re-indexing is independent of history

The point ids are the only thing a history can put into the data of a freshly
indexed file. `IndexedExactly` says what the rest is, and two indexings of one
content differ by the renaming that takes the ids of one to those of the other.
-/

namespace LocalGraphRag.Ingest

open Python Relational LocalGraphRag.Graph Effects

/-- The view with its chunk ids renamed, in the rows and in the points. -/
def FileView.rename (ρ : Text → Text) (v : FileView) : FileView where
  chunks := v.chunks.image fun c => { c with chunkId := ρ c.chunkId }
  points := v.points.image fun q => { q with id := ρ q.id }
  mentions := v.mentions
  relationships := v.relationships
  links := v.links.image fun l => { l with chunkId := ρ l.chunkId }
  cached := v.cached
  fingerprint := v.fingerprint

/-- The data of a file are those of one indexing of a content, and no more. -/
structure IndexedExactly (lib : Builtins) (cfg : Settings) (p digest content : Text)
    (vectors : List Embedding) (ids : List Text) (result : ExtractionResult)
    (v : FileView) : Prop where
  chunks : ∃ chunked, chunkFile cfg p content = .ok chunked ∧ ids.length = chunked.length ∧
    ids.Nodup ∧
    (∀ c, c ∈ v.chunks ↔ ids[c.chunkIndex]? = some c.chunkId ∧ c.filepath = p) ∧
    (∀ q, q ∈ v.points ↔ q.filepath = p ∧ ids[q.chunkIndex]? = some q.id ∧
      chunked[q.chunkIndex]? = some (q.text, q.defName) ∧
      vectors[q.chunkIndex]? = some q.vector) ∧
    ∀ l, l ∈ v.links ↔ ∃ e ∈ result.entities, l.entityId = GraphStore.entitySlug e ∧
      3 ≤ (strip e.name).length ∧ ∃ (i : Nat) (c : Text × Option Text),
        ids[i]? = some l.chunkId ∧ chunked[i]? = some c ∧
        lib.nameOccurs (strip e.name) c.1 = true
  mentions : ∀ m, m ∈ v.mentions ↔ ∃ e ∈ result.entities, m = GraphStore.mentionRow p e
  relationships : ∀ r, r ∈ v.relationships ↔
    r.key ∈ relationshipRows p result.relationships ∧
      r.weight = (relationshipRows p result.relationships).count r.key
  fingerprint : v.fingerprint = some digest

section Renaming
variable (lib : Builtins) (p : Text) (ρ : Text → Text)

/-- Distinct ids are taken to any list of as many by an injection. -/
theorem exists_renaming {ids ids' : List Text} (hids : ids.Nodup) (hids' : ids'.Nodup)
    (hlength : ids.length = ids'.length) :
    ∃ ρ : Text → Text, Set.InjOn ρ {id | id ∈ ids} ∧ ids.map ρ = ids' := by
  refine ⟨fun id => ids'.getD (ids.idxOf id) id, ?_, ?_⟩
  · intro a ha b hb hab
    have hia := List.idxOf_lt_length_of_mem ha
    have hib := List.idxOf_lt_length_of_mem hb
    simp only [List.getD_eq_getElem _ _ (hlength ▸ hia),
      List.getD_eq_getElem _ _ (hlength ▸ hib)] at hab
    exact (List.idxOf_inj ha).mp (hids'.getElem_inj_iff.mp hab)
  · refine List.ext_getElem (by simp [hlength]) fun i hi hi' => ?_
    rw [List.length_map] at hi
    rw [List.getElem_map, hids.idxOf_getElem i hi, List.getD_eq_getElem _ _ hi']

theorem chunkRows_map (ids : List Text) :
    chunkRows p (ids.map ρ) =
      (chunkRows p ids).map fun c => { c with chunkId := ρ c.chunkId } := by
  simp only [chunkRows, List.zipIdx_map, List.map_map]
  rfl

theorem buildPoints_map {chunked : List (Text × Option Text)} {vectors : List Embedding}
    {ids : List Text} {points : List Point}
    (h : buildPoints p chunked vectors ids = .ok points) :
    buildPoints p chunked vectors (ids.map ρ) =
      .ok (points.map fun q => { q with id := ρ q.id }) := by
  unfold buildPoints at h ⊢
  split_ifs at h ⊢ with hlen
  cases h
  rw [List.zip_map_left, List.zipIdx_map, List.map_map, List.map_map]
  rfl

theorem matchedPairs_map (chunks ids : List Text) (e : Entity × Text) :
    matchedPairs lib chunks (ids.map ρ) e =
      (matchedPairs lib chunks ids e).map fun x => (ρ x.1, x.2) := by
  unfold matchedPairs
  split_ifs
  · rfl
  · rw [List.zip_map_left, List.filter_map, List.map_map, List.map_map]
    rfl

end Renaming

namespace Indexing

variable {lib : Builtins} {ollama : Ollama} {cfg : Settings} {p content : Text}

theorem ids_length_chunks (x : Indexing lib ollama cfg p content) :
    x.ids.length = (x.chunked.map Prod.fst).length := by
  rw [x.ids_length, List.length_map]

theorem pairs_flatMap (x : Indexing lib ollama cfg p content) :
    x.pairs = (x.result.entities.zip (x.result.entities.map GraphStore.entitySlug)).flatMap
      (matchedPairs lib (x.chunked.map Prod.fst) x.ids) := by
  have h := x.pairs_eq
  rw [matchEntityChunks_eq lib x.ids_length_chunks (by rw [List.length_map])] at h
  exact (Except.ok.inj h).symm

/-- Indexings of one content with the same vectors and extraction result differ
in their ids only. -/
theorem view_rename (x y : Indexing lib ollama cfg p content) (hvectors : x.vectors = y.vectors)
    (hresult : x.result = y.result) {ρ : Text → Text} (hids : x.ids.map ρ = y.ids)
    (cached : Finset CacheRow) (fingerprint : Option Text) :
    (x.view cached fingerprint).rename ρ = y.view cached fingerprint := by
  have hchunked : x.chunked = y.chunked :=
    Except.ok.inj (x.chunked_eq.symm.trans y.chunked_eq)
  have hpoints : x.points.map (fun q => { q with id := ρ q.id }) = y.points := by
    have h := buildPoints_map p ρ x.points_eq
    rw [hids, hvectors, hchunked, y.points_eq] at h
    exact (Except.ok.inj h).symm
  have hpairs : x.pairs.map (fun z => (ρ z.1, z.2)) = y.pairs := by
    rw [x.pairs_flatMap, y.pairs_flatMap, List.map_flatMap, ← hids, hresult, hchunked]
    exact congrArg (List.flatMap · _) (funext fun e => (matchedPairs_map lib ρ _ _ e).symm)
  have himage : ∀ {α β : Type} [DecidableEq α] [DecidableEq β] (f : α → β) (l : List α),
      l.toFinset.image f = (l.map f).toFinset := by
    intro α β _ _ f l
    ext b
    simp
  refine FileView.ext ?_ ?_ ?_ ?_ ?_ rfl rfl
  · change (chunkRows p (x.points.map Point.id)).toFinset.image _ = _
    rw [himage, ← chunkRows_map, buildPoints_ids x.points_eq x.ids_length, hids,
      ← buildPoints_ids y.points_eq y.ids_length]
    rfl
  · change x.points.toFinset.image _ = _
    rw [himage, hpoints]
    rfl
  · change (x.result.entities.map _).toFinset = (y.result.entities.map _).toFinset
    rw [hresult]
  · change countedRelationships _ = countedRelationships _
    rw [hresult]
  · change (linkRows x.pairs).image _ = linkRows y.pairs
    rw [linkRows, linkRows, himage, ← hpairs, List.map_map, List.map_map]
    rfl

/-- The view of an indexing, field by field. -/
theorem indexedExactly (x : Indexing lib ollama cfg p content) (cached : Finset CacheRow)
    (digest : Text) :
    IndexedExactly lib cfg p digest content x.vectors x.ids x.result
      (x.view cached (some digest)) where
  chunks := by
    refine ⟨x.chunked, x.chunked_eq, x.ids_length, x.ids_nodup, fun c => ?_, fun q => ?_,
      fun l => ?_⟩
    · change c ∈ (chunkRows p (x.points.map Point.id)).toFinset ↔ _
      rw [List.mem_toFinset, buildPoints_ids x.points_eq x.ids_length, mem_chunkRows]
    · change q ∈ x.points.toFinset ↔ _
      rw [List.mem_toFinset, mem_buildPoints x.points_eq]
    · change l ∈ linkRows x.pairs ↔ _
      rw [mem_linkRows, mem_matchEntityChunks lib x.ids_length_chunks x.pairs_eq]
      have hzip : x.result.entities.zip (x.result.entities.map GraphStore.entitySlug) =
          x.result.entities.map fun e => (e, GraphStore.entitySlug e) :=
        List.map_prod_left_eq_zip.symm
      simp only [hzip, List.mem_map, exists_exists_and_eq_and, mem_matchedPairs,
        List.getElem?_map, Option.map_eq_some_iff]
      constructor
      · rintro ⟨e, he, hl, hname, i, t, hi, ⟨c, hc, rfl⟩, hocc⟩
        exact ⟨e, he, hl, hname, i, c, hi, hc, hocc⟩
      · rintro ⟨e, he, hl, hname, i, c, hi, hc, hocc⟩
        exact ⟨e, he, hl, hname, i, c.1, hi, ⟨c, hc, rfl⟩, hocc⟩
  mentions := by
    intro m
    change m ∈ (x.result.entities.map (GraphStore.mentionRow p)).toFinset ↔ _
    simp only [List.mem_toFinset, List.mem_map, eq_comm]
  relationships := fun r => mem_countedRelationships
  fingerprint := rfl

end Indexing

/-- `_index_file` returns the outcome of its body's report. -/
theorem run_indexFile (lib : Builtins) (cfg : Settings) (p : Text) (cs : List Choice)
    (w : World) : run World.step (indexFile lib cfg p) cs w =
      let (r, w') := run World.step (indexFileReport lib cfg p) cs w
      (r.map fun r => r.map Report.outcome, w') := by
  exact run_bind_ret World.step _ _ cs w

/-- Re-indexing is independent of history: wherever two lifetimes left the stores,
if indexing the file then ends with the same content, vectors and extraction
result and without a failed batch, the file's data are exactly those of that
content, and the same in both worlds but for the point ids. -/
theorem reindexing_history_independent (lib : Builtins) (cfg : Settings) (p : Text)
    {w₁ w₂ w₁' w₂' : World} {cs₁ cs₂ : List Choice} {digest content : Text}
    {vectors : List Embedding} {ids₁ ids₂ : List Text} {result : ExtractionResult}
    (h₁ : Reachable lib w₁) (h₂ : Reachable lib w₂)
    (hrun₁ : run World.step (indexFileReport lib cfg p) cs₁ w₁ =
      (some (.ok (.indexed digest content vectors ids₁ result)), w₁'))
    (hrun₂ : run World.step (indexFileReport lib cfg p) cs₂ w₂ =
      (some (.ok (.indexed digest content vectors ids₂ result)), w₂'))
    (hsucceeded : result.hadFailure = false) :
    IndexedExactly lib cfg p digest content vectors ids₁ result (w₁'.view p) ∧
      IndexedExactly lib cfg p digest content vectors ids₂ result (w₂'.view p) ∧
      ∃ ρ : Text → Text, Set.InjOn ρ {id | id ∈ ids₁} ∧ ids₁.map ρ = ids₂ ∧
        w₂'.view p = { (w₁'.view p).rename ρ with cached := (w₂'.view p).cached } := by
  have hindexed : ∀ {w w' : World} {cs : List Choice} {ids : List Text}, Reachable lib w →
      run World.step (indexFileReport lib cfg p) cs w =
        (some (.ok (.indexed digest content vectors ids result)), w') →
      ∃ x : Indexing lib (Discipline.unrestricted lib).ollama cfg p content,
        x.vectors = vectors ∧ x.ids = ids ∧ x.result = result ∧
          ∃ cached, w'.view p = x.view cached (some digest) := by
    intro w w' cs ids hw hrun
    have hsafe := (indexFileReport_establishes (D := .unrestricted lib) (p := p)
      trivial hw.inv).run hw.inv cs
        (guarded_true (transitions World.step (indexFileReport lib cfg p) cs w))
    rw [hrun] at hsafe
    obtain ⟨x, hv, hi, hr, cached, hview⟩ := (hsafe.2 _ rfl).2 _ rfl _ _ _ _ _ rfl
    rw [if_neg (by simp [hsucceeded])] at hview
    exact ⟨x, hv, hi, hr, cached, hview⟩
  obtain ⟨x, rfl, rfl, rfl, cached₁, hview₁⟩ := hindexed h₁ hrun₁
  obtain ⟨y, hvectors, rfl, hresult, cached₂, hview₂⟩ := hindexed h₂ hrun₂
  obtain ⟨ρ, hinj, hρ⟩ := exists_renaming x.ids_nodup y.ids_nodup
    (by rw [x.ids_length_chunks, y.ids_length_chunks,
      Except.ok.inj (x.chunked_eq.symm.trans y.chunked_eq)])
  refine ⟨?_, ?_, ρ, hinj, hρ, ?_⟩
  · rw [hview₁]
    exact x.indexedExactly cached₁ digest
  · rw [hview₂, ← hvectors, ← hresult]
    exact y.indexedExactly cached₂ digest
  · rw [hview₁, hview₂, ← x.view_rename y hvectors.symm hresult.symm hρ]
    rfl

/-- The report of indexing the text `B` of the sample file under a new id. -/
def sampleReport (id : Text) : Report :=
  .indexed (text "B") (text "B") [[1]] [id]
    ⟨[⟨text "abc", none, []⟩], [], false, 0⟩

def sampleIndexing (choices : List Choice) (w : World) :
    Option (Except Failure Report) × World :=
  run World.step (indexFileReport sampleBuiltins sampleSettings samplePath)
    ([.bytes [66], .done, .bytes [66], .vectors [[1]], .done] ++ choices) w

/-- The sample file indexed over empty stores, and over an interrupted run. -/
theorem reindexing_history_independent_sample :
    ∃ ρ : Text → Text, Set.InjOn ρ {id | id ∈ [text "u1"]} ∧
      [text "u1"].map ρ = [text "u2"] ∧
        (sampleIndexing [.done, .done, .ids [text "u2"], .done, .done, .done,
          .reply sampleReply, .done, .done, .done, .done, .done] interruptedWorld).2.view
            samplePath =
          { ((sampleIndexing [.done, .ids [text "u1"], .done, .done, .done,
              .reply sampleReply, .done, .done, .done, .done, .done] World.empty).2.view
                samplePath).rename ρ with
            cached := ((sampleIndexing [.done, .done, .ids [text "u2"], .done, .done, .done,
              .reply sampleReply, .done, .done, .done, .done, .done] interruptedWorld).2.view
                samplePath).cached } := by
  have hempty : (sampleIndexing [.done, .ids [text "u1"], .done, .done, .done,
      .reply sampleReply, .done, .done, .done, .done, .done] World.empty).1 =
        some (.ok (sampleReport (text "u1"))) := by decide +kernel
  have hinterrupted : (sampleIndexing [.done, .done, .ids [text "u2"], .done, .done, .done,
      .reply sampleReply, .done, .done, .done, .done, .done] interruptedWorld).1 =
        some (.ok (sampleReport (text "u2"))) := by decide +kernel
  exact (reindexing_history_independent sampleBuiltins sampleSettings samplePath
    (⟨[], rfl⟩ : Reachable sampleBuiltins World.empty) ⟨interruptedRuns, rfl⟩
    (run_eq_of_result World.step hempty) (run_eq_of_result World.step hinterrupted) rfl).2.2

end LocalGraphRag.Ingest
