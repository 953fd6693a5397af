import LocalGraphRag.Graph.Commits
import LocalGraphRag.Ingest.Ownership

/-!
# Replies that a file cannot store

A reply is cached before it is parsed, and replayed on every run. When nothing
else fails, the rest of `_write_index_data` completes just when every text that
survives normalisation can be bound: JSON escapes denote lone surrogates, which
the normaliser keeps and SQLite refuses.
-/

namespace LocalGraphRag.Ingest

open Python Relational LocalGraphRag.Graph Effects

/-- Every call is answered: the model replies, the others return. -/
def Call.answeredBy : Call → Choice → Bool
  | .generate _ _, .reply _ => true
  | .generate _ _, _ => false
  | _, .done => true
  | _, _ => false

/-- `register_chunks` succeeds, and so does the caching of every reply. -/
def Call.accepted (s : GraphStore) : Call → Bool
  | .write (.registerChunks chunks) => (s.registerChunks chunks).toBool
  | .write (.cacheExtraction p i digest reply) =>
      (s.cacheExtraction p i digest reply).toBool
  | _ => true

/-- Nothing outside of the file's own data makes the call fail. -/
def Undisturbed (w : World) (o : Call) (c : Choice) : Prop :=
  o.answeredBy c = true ∧ o.accepted w.store = true

instance (w : World) (o : Call) (c : Choice) : Decidable (Undisturbed w o c) :=
  inferInstanceAs (Decidable (_ ∧ _))

section Replies
variable (lib : Builtins) (cfg : Settings)

/-- The batches the model is asked about: none for git history. -/
def requestedBatches (filepath : Text) (chunks : List Text) : List Text :=
  if isRelativeTo filepath cfg.gitHistoryDir then []
  else buildBatches cfg.extract.batchTokens chunks

/-- The replies cached for numbered batches, in order. -/
def RepliesCached (filepath : Text) (s : GraphStore) (batches : List (Text × Nat))
    (replies : List Text) : Prop :=
  List.Forall₂ (fun batch reply => s.getCachedExtraction filepath batch.2
    (requestDigest lib.sha256 (batchPayload cfg.extract batch.1)) = some reply) batches replies

/-- What these replies contribute, parsed and normalised. -/
def extractionOf (replies : List Text) : ExtractionResult :=
  combineBatches (replies.map fun reply =>
    some (parseExtractionResponse cfg.extract.recursionLimit reply))

/-- Every text that survived normalisation is encodable as UTF-8. -/
def Bindable (result : ExtractionResult) : Prop :=
  (∀ e ∈ result.entities, Encodable e.name ∧ Encodable e.description ∧
    ∀ type ∈ e.type, Encodable type) ∧
    ∀ r ∈ result.relationships, Encodable r.label

instance (result : ExtractionResult) : Decidable (Bindable result) :=
  inferInstanceAs (Decidable (_ ∧ _))

end Replies

section Undisturbed
variable {lib : Builtins} {cfg : Settings} {p : Text} {w : World}

theorem extractionOf_hadFailure (cfg : Settings) (replies : List Text) :
    (extractionOf cfg replies).hadFailure = false := by
  change (List.map _ replies).any Option.isNone = false
  simp

/-- Entities and relationships of one extraction fit together. -/
theorem extractionOf_slugs (cfg : Settings) (replies : List Text) :
    (∀ e ∈ (extractionOf cfg replies).entities,
      strip e.name = e.name ∧ GraphStore.entitySlug e ≠ []) ∧
    ∀ r ∈ (extractionOf cfg replies).relationships,
      slugify r.source ∈ (extractionOf cfg replies).entities.map GraphStore.entitySlug ∧
        slugify r.target ∈ (extractionOf cfg replies).entities.map GraphStore.entitySlug := by
  refine ⟨normalizeEntities_stripped _, fun r hr => ?_⟩
  have hslugs := normalizeEntities_slugs ((replies.map fun reply =>
    some (parseExtractionResponse cfg.extract.recursionLimit reply)).flatMap fun r =>
      (r.map RawResult.entities).getD [])
  change _ ∈ (normalizeEntities _).1.map _ ∧ _ ∈ (normalizeEntities _).1.map _
  rw [hslugs]
  exact normalizeRelationships_endpoints hr

/-- An undisturbed write does what its method does. -/
theorem safe_undisturbed_write {β : Type} {op : StoreWrite} {f : Unit → Indexer β}
    {Q : Except Failure β → World → Prop}
    (hok : ∀ s', Call.accepted w.store (.write op) = true → op.apply w.store = .ok s' →
      Safe World.step Undisturbed (fun _ => True) (f ()) Q { w with store := s' })
    (herror : ∀ e, Call.accepted w.store (.write op) = true → op.apply w.store = .error e →
      Q (.error (.store e)) w) :
    Safe World.step Undisturbed (fun _ => True) ((Prog.perform (.write op)).bind f) Q w := by
  refine safe_perform_bind fun c hc => ⟨trivial, ?_⟩
  cases c with
  | done =>
      cases h : op.apply w.store with
      | ok s' => simpa [World.step, World.commit, h, Except.map] using hok s' hc.2 h
      | error e => simpa [World.step, World.commit, h, Except.map] using herror e hc.2 h
  | _ => cases hc.1

/-- An undisturbed write that commits for sure. -/
theorem safe_undisturbed_commit {β : Type} {op : StoreWrite} {f : Unit → Indexer β}
    {Q : Except Failure β → World → Prop}
    (hcommits : Call.accepted w.store (.write op) = true → ∃ s', op.apply w.store = .ok s')
    (hok : ∀ s', op.apply w.store = .ok s' →
      Safe World.step Undisturbed (fun _ => True) (f ()) Q { w with store := s' }) :
    Safe World.step Undisturbed (fun _ => True) ((Prog.perform (.write op)).bind f) Q w := by
  refine safe_undisturbed_write (fun s' _ hs' => hok s' hs') fun e haccepted he => ?_
  obtain ⟨s', hs'⟩ := hcommits haccepted
  rw [hs'] at he
  cases he

theorem exists_ok_of_toBool {α : Type} {m : Except StoreError α} (h : m.toBool = true) :
    ∃ a, m = .ok a := by
  cases m with
  | ok a => exact ⟨a, rfl⟩
  | error e => cases h

/-- A new reply does not change what is cached for another batch. -/
theorem getCachedExtraction_of_ne {s s' : GraphStore} {i j : Nat} {digest reply : Text}
    (h : s.cacheExtraction p i digest reply = .ok s') (hj : j ≠ i) (d : Text) :
    s'.getCachedExtraction p j d = s.getCachedExtraction p j d := by
  ext r
  rw [GraphStore.getCachedExtraction_eq_some_iff, GraphStore.getCachedExtraction_eq_some_iff,
    GraphStore.cacheExtraction_tables h]
  refine (Table.mem_insertOrReplace ..).trans ⟨?_, fun hr => Or.inr ⟨hr, fun hk => ?_⟩⟩
  · rintro (hr | hr)
    · exact absurd (congrArg CacheRow.batchIndex hr) hj
    · exact hr.1
  · exact hj (Prod.mk.inj hk).2

/-- What an undisturbed extraction leaves alone. -/
structure OnlyCaches (p : Text) (indices : List Nat) (w w' : World) : Prop where
  chunks : w'.store.chunks = w.store.chunks
  cached : ∀ j ∉ indices, ∀ d,
    w'.store.getCachedExtraction p j d = w.store.getCachedExtraction p j d

/-- Undisturbed, a batch has a reply, cached before or now. -/
theorem loadOrExtractBatch_undisturbed (hlib : ∀ b, Encodable (lib.sha256 b))
    (hp : Encodable p) (batch : Text) (i : Nat) :
    Safe World.step Undisturbed (fun _ => True) (loadOrExtractBatch lib cfg p batch i)
      (fun r w' => ∃ reply,
        r = .ok (parseExtractionResponse cfg.extract.recursionLimit reply) ∧
          w'.store.getCachedExtraction p i
            (requestDigest lib.sha256 (batchPayload cfg.extract batch)) = some reply ∧
          OnlyCaches p [i] w w') w := by
  unfold Ingest.loadOrExtractBatch
  have hdigest : Encodable (requestDigest lib.sha256 (batchPayload cfg.extract batch)) :=
    hlib _
  refine safe_perform_bind fun c hc => ⟨trivial, ?_⟩
  cases c with
  | done =>
      have hbind : GraphStore.bindText
          [p, requestDigest lib.sha256 (batchPayload cfg.extract batch)] = .ok () :=
        GraphStore.bindText_eq_ok.mpr (by simpa using ⟨hp, hdigest⟩)
      simp only [World.step, World.query, hbind, thenPost_ok]
      cases hcached : w.store.getCachedExtraction p i
          (requestDigest lib.sha256 (batchPayload cfg.extract batch)) with
      | some reply => exact ⟨reply, rfl, hcached, rfl, fun _ _ _ => rfl⟩
      | none =>
          refine safe_perform_bind fun c' hc' => ⟨trivial, ?_⟩
          cases c' with
          | reply reply =>
              refine safe_undisturbed_commit exists_ok_of_toBool fun s' hs' => ?_
              refine ⟨reply, rfl, ?_, ?_, fun j hj d => ?_⟩
              · rw [GraphStore.getCachedExtraction_eq_some_iff]
                change _ ∈ s'.extractionCache
                rw [GraphStore.cacheExtraction_tables hs']
                exact (Table.mem_insertOrReplace ..).mpr (Or.inl rfl)
              · change s'.chunks = w.store.chunks
                rw [GraphStore.cacheExtraction_tables hs']
                rfl
              · exact getCachedExtraction_of_ne hs' (by simpa using hj) d
          | _ => cases hc'.1
  | _ => cases hc.1

theorem OnlyCaches.trans {l l' : List Nat} {w₁ w₂ w₃ : World} (h : OnlyCaches p l w₁ w₂)
    (h' : OnlyCaches p l' w₂ w₃) : OnlyCaches p (l ++ l') w₁ w₃ := by
  refine ⟨h'.chunks.trans h.chunks, fun j hj d => ?_⟩
  rw [List.mem_append, not_or] at hj
  exact (h'.cached j hj.2 d).trans (h.cached j hj.1 d)

/-- Undisturbed, every batch of a file has a reply in the end. -/
theorem extractBatches_undisturbed (hlib : ∀ b, Encodable (lib.sha256 b))
    (hp : Encodable p) (batches : List Text) :
    Safe World.step Undisturbed (fun _ => True) (extractBatches lib cfg p batches)
      (fun r w' => ∃ replies, RepliesCached lib cfg p w'.store batches.zipIdx replies ∧
        w'.store.chunks = w.store.chunks ∧ r = .ok (replies.map fun reply =>
          some (parseExtractionResponse cfg.extract.recursionLimit reply))) w := by
  unfold Ingest.extractBatches
  refine safe_foldlM
    (fun done acc w' => OnlyCaches p (done.map Prod.snd) w w' ∧
      ∃ replies, RepliesCached lib cfg p w'.store done replies ∧
        acc = replies.map fun reply =>
          some (parseExtractionResponse cfg.extract.recursionLimit reply))
    (fun _ _ => False) ⟨⟨rfl, fun _ _ _ => rfl⟩, [], List.Forall₂.nil, rfl⟩ ?_ ?_
  · rintro (e | acc) w' hr
    · exact hr.elim
    · obtain ⟨honly, replies, hreplies, rfl⟩ := hr
      exact ⟨replies, hreplies, honly.chunks, rfl⟩
  · rintro done ⟨batch, i⟩ rest hsplit acc w₁ ⟨honly, replies, hreplies, rfl⟩
    -- the indices are distinct, so the earlier replies stay
    have hindex : i ∉ done.map Prod.snd := by
      have hnodup : (batches.zipIdx.map Prod.snd).Nodup := by
        rw [List.zipIdx_map_snd]
        exact List.nodup_range'
      rw [hsplit, List.map_append, List.map_cons] at hnodup
      exact fun hi => (List.nodup_append.mp hnodup).2.2 i hi i (by simp) rfl
    unfold Ingest.extractBatch
    refine safe_bind (safe_orElse (safe_bind (safe_mono
      (loadOrExtractBatch_undisturbed hlib hp batch i) ?_)))
    rintro r w₂ ⟨reply, rfl, hreply, honly₂⟩
    rw [thenPost_ok]
    refine ⟨by simpa using honly.trans honly₂, replies ++ [reply], ?_, by simp⟩
    refine List.rel_append ?_ (List.Forall₂.cons hreply List.Forall₂.nil)
    obtain ⟨hlength, hcached⟩ := List.forall₂_iff_zip.mp hreplies
    refine List.forall₂_iff_zip.mpr ⟨hlength, fun {b r} hbr => ?_⟩
    have hne : b.2 ∉ [i] := by
      rw [List.mem_singleton]
      rintro rfl
      exact hindex (List.mem_map_of_mem (List.of_mem_zip hbr).1)
    rw [honly₂.cached b.2 hne]
    exact hcached hbr

theorem RepliesCached.of_cache {s s' : GraphStore} {batches : List (Text × Nat)}
    {replies : List Text} (h : RepliesCached lib cfg p s batches replies)
    (hcache : s'.extractionCache = s.extractionCache) :
    RepliesCached lib cfg p s' batches replies := by
  unfold RepliesCached GraphStore.getCachedExtraction at h ⊢
  rwa [hcache]

/-- Undisturbed, extraction returns what the cached replies contribute. -/
theorem extractUnlessHistory_undisturbed (hlib : ∀ b, Encodable (lib.sha256 b))
    (hp : Encodable p) (chunks : List Text) :
    Safe World.step Undisturbed (fun _ => True) (extractUnlessHistory lib cfg chunks p)
      (fun r w' => ∃ replies,
        RepliesCached lib cfg p w'.store (requestedBatches cfg p chunks).zipIdx replies ∧
          w'.store.chunks = w.store.chunks ∧ r = .ok (extractionOf cfg replies)) w := by
  unfold Ingest.extractUnlessHistory requestedBatches
  split_ifs with hhistory
  · exact ⟨[], List.Forall₂.nil, rfl, rfl⟩
  · unfold Ingest.extractEntitiesForFile
    split_ifs with hnil
    · subst hnil
      exact ⟨[], List.Forall₂.nil, rfl, rfl⟩
    · refine safe_bind (safe_mono (extractBatches_undisturbed hlib hp _) ?_)
      rintro r w' ⟨replies, hreplies, hchunks, rfl⟩
      exact ⟨replies, hreplies, hchunks, rfl⟩

section Write
variable {chunks : List Text} {points : List Point}

/-- The chunk ids of a file are registered, and can be bound. -/
def Registered (points : List Point) (s : GraphStore) : Prop :=
  ∀ id ∈ points.map Point.id, Encodable id ∧ ∃ c ∈ s.chunks, c.chunkId = id

/-- Registering the chunks binds their ids, and the path if there are any. -/
theorem registered_of_registerChunks {s s' : GraphStore}
    (h : s.registerChunks (chunkRows p (points.map Point.id)) = .ok s') (hne : points ≠ []) :
    Encodable p ∧ Registered points s' := by
  have hbound := GraphStore.registerChunks_encodable h
  have hrow : ∀ id ∈ points.map Point.id, Encodable id ∧ Encodable p := by
    intro id hid
    obtain ⟨i, hi⟩ := List.getElem?_of_mem hid
    exact hbound ⟨id, p, i⟩ ((mem_chunkRows p).mpr ⟨hi, rfl⟩)
  obtain ⟨point, hpoint⟩ := List.exists_mem_of_ne_nil points hne
  refine ⟨(hrow point.id (List.mem_map_of_mem hpoint)).2, fun id hid => ⟨(hrow id hid).1, ?_⟩⟩
  rw [GraphStore.registerChunks_tables h]
  refine (Table.exists_key_insertAllOrReplace s.chunks _ id).mpr (Or.inr ?_)
  rwa [chunkRows_map_chunkId]

/-- The links of stored entities to registered chunks commit. -/
theorem linkChunks_matched_commits {entities : List Entity} {s : GraphStore}
    (hids : Registered points s)
    (hslugs : ∀ slug ∈ entities.map GraphStore.entitySlug, s.toTables.HasEntity slug) :
    ∃ s', s.linkChunks ((entities.zip (entities.map GraphStore.entitySlug)).flatMap
      (matchedPairs lib chunks (points.map Point.id))) = .ok s' := by
  have hlinks : ∀ x ∈ (entities.zip (entities.map GraphStore.entitySlug)).flatMap
      (matchedPairs lib chunks (points.map Point.id)),
      x.1 ∈ points.map Point.id ∧ x.2 ∈ entities.map GraphStore.entitySlug := by
    intro x hx
    obtain ⟨e, he, hxe⟩ := List.mem_flatMap.mp hx
    obtain ⟨hchunk, hentity⟩ := ends_of_mem_matchedPairs lib hxe
    exact ⟨hchunk, hentity ▸ (List.of_mem_zip he).2⟩
  refine GraphStore.linkChunks_commits (fun x hx => ?_) fun x hx => ?_
  · exact ⟨(hids x.1 (hlinks x hx).1).2, hslugs x.2 (hlinks x hx).2⟩
  · obtain ⟨e, -, he⟩ := List.mem_map.mp (hlinks x hx).2
    exact ⟨(hids x.1 (hlinks x hx).1).1, he ▸ slugify_encodable _⟩

/-- Undisturbed, the links and the fingerprint of stored entities are written. -/
theorem linkAndMark_undisturbed (hlib : ∀ b, Encodable (lib.sha256 b)) (hp : Encodable p)
    (hlength : points.length = chunks.length) (content : Bytes)
    (hids : Registered points w.store) {result : ExtractionResult}
    (hslugs : ∀ slug ∈ result.entities.map GraphStore.entitySlug, w.store.toTables.HasEntity slug)
    (hfailure : result.hadFailure = false) :
    Safe World.step Undisturbed (fun _ => True) (do
        let pairs ← Prog.ofExcept (matchEntityChunks lib chunks (points.map Point.id)
          result.entities (result.entities.map GraphStore.entitySlug))
        Prog.perform (Call.write (.linkChunks pairs))
        if result.hadFailure then return result
        else
          Prog.perform (Call.write (.upsertHash p (lib.sha256 content)))
          return result)
      (fun r w' => r = .ok result ∧ w'.store.extractionCache = w.store.extractionCache ∧
        w'.store.getHash p = some (lib.sha256 content)) w := by
  apply safe_bind
  rw [safe_ofExcept, matchEntityChunks_eq lib (by rw [List.length_map, hlength]) (by simp),
    thenPost_ok]
  refine safe_undisturbed_commit (fun _ => linkChunks_matched_commits hids hslugs)
    fun s₁ hs₁ => ?_
  rw [hfailure, if_neg (by decide)]
  refine safe_undisturbed_commit (fun _ => GraphStore.upsertHash_commits hp (hlib content))
    fun s₂ hs₂ => ⟨rfl, ?_, ?_⟩
  · change s₂.extractionCache = _
    rw [GraphStore.upsertHash_tables hs₂, Tables.setFingerprint, GraphStore.linkChunks_tables hs₁]
    rfl
  · rw [GraphStore.getHash_eq_some_iff]
    change _ ∈ s₂.fingerprints
    rw [GraphStore.upsertHash_tables hs₂]
    exact (Table.mem_insertOrReplace ..).mpr (Or.inl rfl)

/-- Entities that the normaliser kept are stored just when their texts are encodable. -/
theorem upsertEntities_commits_iff_encodable {entities : List Entity} (s : GraphStore)
    (hstripped : ∀ e ∈ entities, strip e.name = e.name ∧ GraphStore.entitySlug e ≠ [])
    (hp : Encodable p) : (∃ r, s.upsertEntities entities p = .ok r) ↔
      ∀ e ∈ entities, Encodable e.name ∧ Encodable e.description ∧
        ∀ type ∈ e.type, Encodable type := by
  rw [s.upsertEntities_commits_iff]
  constructor
  · intro ⟨_, _, hnames⟩ e he
    have hname := hnames e he
    rwa [(hstripped e he).1] at hname
  · intro hnames
    refine ⟨fun e he => (hstripped e he).2, hp, fun e he => ?_⟩
    rw [(hstripped e he).1]
    exact hnames e he

/-- Relationships between stored entities are stored just when their labels are encodable. -/
theorem upsertRelationships_commits_iff_encodable {relationships : List Relationship}
    {s : GraphStore} (hends : ∀ r ∈ relationships,
      s.toTables.HasEntity (slugify r.source) ∧ s.toTables.HasEntity (slugify r.target))
    (hp : Encodable p) : (∃ s', s.upsertRelationships (relationshipRows p relationships) = .ok s') ↔
      ∀ r ∈ relationships, Encodable r.label := by
  have hrows : ∀ k ∈ relationshipRows p relationships,
      s.toTables.HasEntity k.1 ∧ s.toTables.HasEntity k.2.1 := by
    intro k hk
    obtain ⟨r, hr, rfl⟩ := List.mem_map.mp hk
    exact hends r hr
  rw [GraphStore.upsertRelationships_commits_iff hrows]
  constructor
  · intro hencodable r hr
    exact (hencodable _ (List.mem_map_of_mem hr)).2.2.1
  · intro hlabels k hk
    obtain ⟨r, hr, rfl⟩ := List.mem_map.mp hk
    exact ⟨slugify_encodable _, slugify_encodable _, hlabels r hr, hp⟩

/-- Undisturbed, what follows the extraction completes just when its result is bindable. -/
theorem storeExtraction_undisturbed (hlib : ∀ b, Encodable (lib.sha256 b)) (hp : Encodable p)
    (hlength : points.length = chunks.length) (content : Bytes)
    (hids : Registered points w.store) {replies : List Text} {result : ExtractionResult}
    (hresult : extractionOf cfg replies = result) :
    Safe World.step Undisturbed (fun _ => True) (do
        let entityIds ← Prog.perform (Call.upsertEntities result.entities p)
        Prog.perform (Call.write
          (.upsertRelationships (relationshipRows p result.relationships)))
        let pairs ← Prog.ofExcept (matchEntityChunks lib chunks (points.map Point.id)
          result.entities entityIds)
        Prog.perform (Call.write (.linkChunks pairs))
        if result.hadFailure then return result
        else
          Prog.perform (Call.write (.upsertHash p (lib.sha256 content)))
          return result)
      (fun r w' => w'.store.extractionCache = w.store.extractionCache ∧
        (((∃ result, r = .ok result) ∧ w'.store.getHash p = some (lib.sha256 content)) ↔
          Bindable result)) w := by
  obtain ⟨hstripped, hends⟩ := extractionOf_slugs cfg replies
  have hfailure := extractionOf_hadFailure cfg replies
  rw [hresult] at hstripped hends hfailure
  -- the entities and mentions
  refine safe_perform_bind fun c hc => ⟨trivial, ?_⟩
  cases c with
  | reply | bytes | vectors | ids | scan | fault | applied => cases hc.1
  | done =>
  have hentities := upsertEntities_commits_iff_encodable w.store hstripped hp
  simp only [World.step]
  cases hs₁ : w.store.upsertEntities result.entities p with
  | error e =>
      refine ⟨rfl, iff_of_false (by rintro ⟨⟨_, ⟨⟩⟩, -⟩) fun hbindable => ?_⟩
      obtain ⟨r, hr⟩ := hentities.mpr hbindable.1
      rw [hs₁] at hr
      cases hr
  | ok r =>
  obtain ⟨slugs, s₁⟩ := r
  obtain ⟨rfl, htables₁⟩ := GraphStore.upsertEntities_tables hs₁
  have hslugs := GraphStore.upsertEntities_hasEntity hs₁
  simp only [World.commit, thenPost_ok]
  -- the relationships
  have hrelationships := upsertRelationships_commits_iff_encodable
    (fun r hr => ⟨hslugs _ (hends r hr).1, hslugs _ (hends r hr).2⟩) hp
  refine safe_undisturbed_write (fun s₂ _ hs₂ => ?_) fun e _ he => ?_
  rotate_left
  · change s₁.upsertRelationships _ = .error e at he
    refine ⟨?_, iff_of_false (by rintro ⟨⟨_, ⟨⟩⟩, -⟩) fun hbindable => ?_⟩
    · change s₁.extractionCache = _
      rw [htables₁]
      rfl
    · obtain ⟨s', hs'⟩ := hrelationships.mpr hbindable.2
      rw [hs'] at he
      cases he
  change s₁.upsertRelationships _ = .ok s₂ at hs₂
  have htables₂ := GraphStore.upsertRelationships_tables hs₂
  have hbindable : Bindable result :=
    ⟨hentities.mp ⟨_, hs₁⟩, hrelationships.mp ⟨s₂, hs₂⟩⟩
  -- the links and the fingerprint
  refine safe_mono (linkAndMark_undisturbed hlib hp hlength content (fun id hid => ?_)
    (fun slug hslug => ?_) hfailure) ?_
  · refine ⟨(hids id hid).1, ?_⟩
    change ∃ c ∈ s₂.chunks, c.chunkId = id
    rw [htables₂, Tables.upsertRelationshipRows, htables₁]
    exact (hids id hid).2
  · change s₂.toTables.HasEntity slug
    rw [htables₂]
    exact hslugs slug hslug
  · rintro _ w' ⟨rfl, hcache, hhash⟩
    refine ⟨hcache.trans ?_, iff_of_true ⟨⟨result, rfl⟩, hhash⟩ hbindable⟩
    change s₂.extractionCache = _
    rw [htables₂, Tables.upsertRelationshipRows, htables₁]
    rfl

/-- Undisturbed, `_write_index_data` completes and records the fingerprint just when
the cached replies contribute encodable texts only. -/
theorem writeIndexData_undisturbed (hlib : ∀ b, Encodable (lib.sha256 b)) (hne : chunks ≠ [])
    (hlength : points.length = chunks.length) (content : Bytes) :
    Safe World.step Undisturbed (fun _ => True)
      (writeIndexData lib cfg p chunks points (lib.sha256 content))
      (fun r w' => ∃ replies,
        RepliesCached lib cfg p w'.store (requestedBatches cfg p chunks).zipIdx replies ∧
          (((∃ result, r = .ok result) ∧
            w'.store.getHash p = some (lib.sha256 content)) ↔
              Bindable (extractionOf cfg replies))) w := by
  unfold Ingest.writeIndexData
  refine safe_undisturbed_commit exists_ok_of_toBool fun s₁ hs₁ => ?_
  obtain ⟨hp, hids⟩ := registered_of_registerChunks hs₁ (by
    rintro rfl
    exact hne (List.length_eq_zero_iff.mp hlength.symm))
  -- the vectors
  refine safe_perform_bind fun c hc => ⟨trivial, ?_⟩
  cases c with
  | reply | bytes | vectors | ids | scan | fault | applied => cases hc.1
  | done =>
  rw [World.step, thenPost_ok]
  -- the extraction
  refine safe_bind (safe_mono (extractUnlessHistory_undisturbed hlib hp chunks) ?_)
  rintro _ w₂ ⟨replies, hreplies, hchunks, rfl⟩
  change w₂.store.chunks = s₁.chunks at hchunks
  refine safe_mono (storeExtraction_undisturbed hlib hp hlength content
    (fun id hid => ⟨(hids id hid).1, hchunks ▸ (hids id hid).2⟩)
    (rfl : extractionOf cfg replies = _)) ?_
  rintro r w' ⟨hcache, hiff⟩
  exact ⟨replies, hreplies.of_cache hcache, hiff⟩

end Write

end Undisturbed

/-- When nothing else fails, `_write_index_data` completes and records the fingerprint
if and only if every text that survives the normalisation of the replies is encodable.
The replies are those that are cached for the file's batches. -/
theorem index_data_written_iff_bindable (lib : Builtins)
    (hlib : ∀ b, Encodable (lib.sha256 b)) (cfg : Settings) (p : Text) {chunks : List Text}
    {points : List Point} (hne : chunks ≠ []) (hlength : points.length = chunks.length)
    (content : Bytes) (w : World) (cs : List Choice)
    (hcalls : Guarded Undisturbed (transitions World.step
      (writeIndexData lib cfg p chunks points (lib.sha256 content)) cs w))
    {r : Except Failure ExtractionResult} {w' : World}
    (hrun : run World.step (writeIndexData lib cfg p chunks points (lib.sha256 content)) cs w =
      (some r, w')) :
    ∃ replies,
      RepliesCached lib cfg p w'.store (requestedBatches cfg p chunks).zipIdx replies ∧
        (((∃ result, r = .ok result) ∧ w'.store.getHash p = some (lib.sha256 content)) ↔
          Bindable (extractionOf cfg replies)) := by
  have hsafe := (writeIndexData_undisturbed (p := p) (w := w) hlib hne hlength
    content).run trivial cs hcalls
  rw [hrun] at hsafe
  exact hsafe.2 r rfl

section Sample

/-- The writes of the sample file's only chunk. -/
def sampleWrites : Indexer ExtractionResult :=
  writeIndexData sampleBuiltins sampleSettings samplePath [text "abc"]
    [⟨text "u1", [1], text "abc", samplePath, 0, none⟩] (sampleBuiltins.sha256 [97, 98, 99])

/-- Every call returns, and the model's reply is this one. -/
def sampleAnswers (reply : Text) : List Choice :=
  [.done, .done, .done, .reply reply, .done, .done, .done, .done, .done]

theorem index_data_written_iff_bindable_sample :
    (run World.step sampleWrites (sampleAnswers sampleReply) World.empty).2.store.getHash
      samplePath = some (sampleBuiltins.sha256 [97, 98, 99]) := by
  have hreturns : (run World.step sampleWrites (sampleAnswers sampleReply) World.empty).1 =
      some (.ok ⟨[⟨text "abc", none, []⟩], [], false, 0⟩) := by decide +kernel
  obtain ⟨replies, hreplies, hiff⟩ := index_data_written_iff_bindable sampleBuiltins
    latin1_encodable sampleSettings samplePath (by decide)
    (show [(⟨text "u1", [1], text "abc", samplePath, 0, none⟩ : Point)].length =
      [text "abc"].length from rfl)
    [97, 98, 99] World.empty (sampleAnswers sampleReply)
    (by unfold Guarded; decide +kernel) (run_eq_of_result World.step hreturns)
  have hcached : (run World.step sampleWrites (sampleAnswers sampleReply)
      World.empty).2.store.getCachedExtraction samplePath 0
        (requestDigest sampleBuiltins.sha256 (batchPayload sampleSettings.extract (text "abc"))) =
      some sampleReply := by decide +kernel
  have hbatches : requestedBatches sampleSettings samplePath [text "abc"] = [text "abc"] := by
    decide +kernel
  rw [hbatches] at hreplies
  cases hreplies with
  | cons hreply hrest =>
  cases hrest
  unfold sampleWrites at hcached ⊢
  simp only [hcached] at hreply
  obtain rfl := Option.some.inj hreply
  have hbindable : Bindable (extractionOf sampleSettings [sampleReply]) := by decide +kernel
  rw [(hiff.mpr hbindable).2]

/-- A name whose second character is an escaped lone surrogate. -/
def poisonedReply : Text := text "\x7b\"entities\": [\x7b\"name\": \"a\\ud800\"\x7d]\x7d"

/-- The next run of `main` finds the old rows to delete and the reply cached. -/
def retryChoices : List Choice :=
  [.scan [samplePath] [], .done, .bytes [97, 98, 99], .done, .bytes [97, 98, 99],
    .vectors [[1]], .done, .done, .done, .ids [text "u2"], .done, .done, .done, .done]

/-- With the reply cached and no other failure, `_write_index_data` raises, and so does
the next run of `main` on the same file, which asks no model. -/
theorem surrogate_reply_fails_every_run :
    (Guarded Undisturbed
        (transitions World.step sampleWrites (sampleAnswers poisonedReply) World.empty) ∧
      (run World.step sampleWrites (sampleAnswers poisonedReply) World.empty).1 =
        some (.error (.store .unencodable))) ∧
      (run World.step (main sampleBuiltins sampleSettings) retryChoices
        ((lifetime sampleBuiltins [(sampleSettings,
          indexChoices [97, 98, 99] (text "u1") poisonedReply)]).final World.step
            World.empty)).1 = some (.ok [.failed]) :=
  ⟨⟨by unfold Guarded; decide +kernel, by decide +kernel⟩, by decide +kernel⟩

end Sample

end LocalGraphRag.Ingest
