import LocalGraphRag.Effects.Safety
import LocalGraphRag.Ingest.Steps

/-!
# Replaying cached replies

`extract_entities_for_file` reads a batch's reply from the cache or asks the
model and caches the reply. Its safety is proved once, for any invariant under
which the cached replies of the file answered their requests.
-/

namespace LocalGraphRag.Ingest

open Python Relational LocalGraphRag.Graph Effects

/-- An invariant under which the cached replies of a file may be replayed, with a
relation between the world before and after. -/
structure Replayable (lib : Builtins) (ollama : Ollama) (G : World → Call → Choice → Prop)
    (p : Text) (I : World → Prop) (R : World → World → Prop) : Prop where
  generates : ∀ {w payload keepAlive r}, G w (.generate payload keepAlive) (.reply r) →
    ollama.Generates payload r
  refl : ∀ w, R w w
  trans : ∀ {w₁ w₂ w₃}, R w₁ w₂ → R w₂ w₃ → R w₁ w₃
  read : ∀ {w o} c, I w → o.writes = false → I (w.step o c).2 ∧ R w (w.step o c).2
  cached : ∀ {w i digest reply}, I w →
    w.store.getCachedExtraction p i digest = some reply → Answered lib ollama digest reply
  cache : ∀ {w i digest reply s'}, I w → Answered lib ollama digest reply →
    w.store.cacheExtraction p i digest reply = .ok s' →
      I { w with store := s' } ∧ R w { w with store := s' }

section Replay
variable {lib : Builtins} {ollama : Ollama} {G : World → Call → Choice → Prop} {p : Text}
  {I : World → Prop} {R : World → World → Prop} {cfg : Settings} {w : World}

/-- A reply comes from the cache or from the model, and is cached if it is new. -/
theorem Replayable.loadOrExtractBatch (h : Replayable lib ollama G p I R) (hw : I w)
    (batch : Text) (i : Nat) :
    Safe World.step G I (loadOrExtractBatch lib cfg p batch i) (fun r w' => I w' ∧ R w w' ∧
      ∀ raw, r = .ok raw → BatchOutcome lib ollama cfg batch (some raw)) w := by
  unfold Ingest.loadOrExtractBatch
  refine safe_perform_bind fun c _ => ?_
  obtain ⟨hw₁, hR₁⟩ := h.read c hw (o := .getCachedExtraction p i
    (requestDigest lib.sha256 (batchPayload cfg.extract batch))) rfl
  refine ⟨hw₁, ?_⟩
  cases hr : w.step (.getCachedExtraction p i
    (requestDigest lib.sha256 (batchPayload cfg.extract batch))) c with
  | mk r w₁ =>
  rw [hr] at hw₁ hR₁
  cases r with
  | error e => exact ⟨hw₁, hR₁, by simp⟩
  | ok cached =>
  cases cached with
  | some reply =>
      refine ⟨hw₁, hR₁, ?_⟩
      rintro raw ⟨⟩ raw' hraw
      cases hraw
      have hget := step_getCachedExtraction w (r := some reply) (by rw [hr])
      exact ⟨reply, h.cached hw hget.symm, rfl⟩
  | none =>
      refine safe_perform_bind fun c' hc' => ?_
      obtain ⟨hw₂, hR₂⟩ := h.read c' hw₁
        (o := .generate (batchPayload cfg.extract batch) cfg.extract.keepAlive) rfl
      refine ⟨hw₂, ?_⟩
      cases hr' : w₁.step (.generate (batchPayload cfg.extract batch)
        cfg.extract.keepAlive) c' with
      | mk r' w₂ =>
      rw [hr'] at hw₂ hR₂
      have hquiet := h.trans hR₁ hR₂
      cases r' with
      | error e => exact ⟨hw₂, hquiet, by simp⟩
      | ok reply =>
      have hreply := step_generate w₁ (r := reply) (by rw [hr'])
      have hanswered : Answered lib ollama
          (requestDigest lib.sha256 (batchPayload cfg.extract batch)) reply :=
        ⟨_, rfl, h.generates (hreply ▸ hc')⟩
      refine safe_perform_bind fun c'' _ => ?_
      obtain ⟨s', hs', hr''⟩ | ⟨e, hr''⟩ := step_write w₂ (.cacheExtraction p i _ reply) c''
      · obtain ⟨hw₃, hR₃⟩ := h.cache hw₂ hanswered hs'
        rw [hr'']
        refine ⟨hw₃, hw₃, h.trans hquiet hR₃, ?_⟩
        rintro raw ⟨⟩ raw' hraw
        cases hraw
        exact ⟨reply, hanswered, rfl⟩
      · rw [hr'']
        exact ⟨hw₂, hw₂, hquiet, by simp⟩

theorem Replayable.extractBatch (h : Replayable lib ollama G p I R) (hw : I w)
    (acc : List (Option RawResult)) (batch : Text × Nat) :
    Safe World.step G I (extractBatch lib cfg p acc batch) (fun r w' => I w' ∧ R w w' ∧
      ∃ outcome, r = .ok (acc ++ [outcome]) ∧
        BatchOutcome lib ollama cfg batch.1 outcome) w := by
  unfold Ingest.extractBatch
  refine safe_bind (safe_orElse (safe_bind ?_))
  apply safe_mono (h.loadOrExtractBatch hw batch.1 batch.2)
  rintro r w' ⟨hw', hR, hraw⟩
  cases r with
  | error e => exact ⟨hw', hR, none, rfl, by simp [BatchOutcome]⟩
  | ok raw => exact ⟨hw', hR, some raw, rfl, hraw raw rfl⟩

/-- The batches of a file never raise, and each has an admitted outcome. -/
theorem Replayable.extractBatches (h : Replayable lib ollama G p I R) (hw : I w)
    (batches : List Text) :
    Safe World.step G I (extractBatches lib cfg p batches) (fun r w' => I w' ∧ R w w' ∧
      ∃ outcomes, r = .ok outcomes ∧
        List.Forall₂ (BatchOutcome lib ollama cfg) batches outcomes) w := by
  unfold Ingest.extractBatches
  refine safe_foldlM
    (fun done acc w' => I w' ∧ R w w' ∧
      List.Forall₂ (BatchOutcome lib ollama cfg) (done.map Prod.fst) acc)
    (fun _ _ => False) ⟨hw, h.refl w, by simp⟩ ?_ ?_
  · rintro (e | outcomes) w' hr
    · exact hr.elim
    · obtain ⟨hw', hR, hall⟩ := hr
      rw [List.zipIdx_map_fst] at hall
      exact ⟨hw', hR, _, rfl, hall⟩
  · rintro done batch rest - acc w₁ ⟨hw₁, hR₁, hall⟩
    apply safe_mono (h.extractBatch hw₁ acc batch)
    rintro r w₂ ⟨hw₂, hR₂, outcome, rfl, hout⟩
    refine ⟨hw₂, h.trans hR₁ hR₂, ?_⟩
    rw [List.map_append]
    exact List.rel_append hall (by simpa using hout)

/-- `extract_entities_for_file` never raises, and combines admitted outcomes. -/
theorem Replayable.extractEntitiesForFile (h : Replayable lib ollama G p I R) (hw : I w)
    (chunks : List Text) :
    Safe World.step G I (extractEntitiesForFile lib cfg chunks p) (fun r w' => I w' ∧
      R w w' ∧ ∃ result, r = .ok result ∧ ((chunks = [] ∧ result = .empty) ∨
        ∃ outcomes, List.Forall₂ (BatchOutcome lib ollama cfg)
            (buildBatches cfg.extract.batchTokens chunks) outcomes ∧
          result = combineBatches outcomes)) w := by
  unfold Ingest.extractEntitiesForFile
  split_ifs with hnil
  · exact ⟨hw, h.refl w, _, rfl, Or.inl ⟨hnil, rfl⟩⟩
  · refine safe_bind (safe_mono (h.extractBatches hw _) ?_)
    rintro r w' ⟨hw', hR, outcomes, rfl, hall⟩
    exact ⟨hw', hR, _, rfl, Or.inr ⟨outcomes, hall, rfl⟩⟩

end Replay

end LocalGraphRag.Ingest
