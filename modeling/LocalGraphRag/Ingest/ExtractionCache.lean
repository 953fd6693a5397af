import LocalGraphRag.Ingest.Ownership

/-!
# The extraction cache is transparent

A row answers the request whose digest it carries, and nothing else can be read
from it. So whatever was cached before, a batch contributes the model's answer
to its own request.
-/

namespace LocalGraphRag.Ingest

open Python Relational LocalGraphRag.Graph Effects

/-- The model is a function of the request body, as its JSON text. -/
def RepliesBy (G : Text → Text) (_ : World) : Call → Choice → Prop
  | .generate payload _, .reply r => r = G payload.dumps
  | _, _ => True

instance (G : Text → Text) (w : World) (o : Call) (c : Choice) :
    Decidable (RepliesBy G w o c) := by
  unfold RepliesBy
  split <;> infer_instance

/-- The outcomes of the batches with no cache at all, some of them failing. -/
def uncachedOutcomes (cfg : Settings) (G : Text → Text) (batches : List Text)
    (failed : List Bool) : List (Option RawResult) :=
  List.zipWith (fun batch failed =>
    if failed then none
    else some (parseExtractionResponse cfg.extract.recursionLimit
      (G (batchPayload cfg.extract batch).dumps))) batches failed

/-- What extraction returns with no cache at all when these batches fail. -/
def uncachedExtraction (cfg : Settings) (G : Text → Text) (chunks : List Text)
    (failed : List Bool) : ExtractionResult :=
  if chunks = [] then .empty
  else combineBatches
    (uncachedOutcomes cfg G (buildBatches cfg.extract.batchTokens chunks) failed)

/-- The calls that do not write the cache directly. -/
def Call.cacheFree : Call → Prop
  | .write (.cacheExtraction ..) => False
  | _ => True

/-- What happens to a store over time: extractions under any settings, and any
other calls, purges and deletions among them. -/
inductive CacheUse where
  | extract (cfg : Settings) (filepath : Text) (chunks : List Text)
  | other (o : Call) (ho : o.cacheFree)

/-- The program of a use, its result dropped. -/
def CacheUse.program (lib : Builtins) : CacheUse → Indexer Unit
  | extract cfg filepath chunks =>
      (extractEntitiesForFile lib cfg chunks filepath).bind fun _ => .ret ()
  | other o _ => (Prog.perform o).bind fun _ => .ret ()

/-- The lifetime of these uses, each with its script. -/
def cacheLifetime (lib : Builtins) (uses : List (CacheUse × List Choice)) :
    Lifetime Call Call.Ret Failure Unit Choice :=
  uses.map fun u => (u.1.program lib, u.2)

section Transparency
variable (lib : Builtins) (G : Text → Text)

/-- The model `G` as a relation; any embedding is allowed. -/
def functionalModel : Ollama := ⟨fun payload r => r = G payload.dumps, fun _ _ => True⟩

/-- Every cached reply is the model's answer to a request with the row's digest. -/
def CacheHonest (w : World) : Prop :=
  ∀ c ∈ w.store.extractionCache, Answered lib (functionalModel G) c.promptSha256 c.result

theorem CacheHonest.of_store {w w' : World} (hw : CacheHonest lib G w)
    (h : w'.store.extractionCache = w.store.extractionCache) : CacheHonest lib G w' :=
  fun c hc => hw c (h ▸ hc)

/-- A call that does not write the cache leaves it or deletes rows of it. -/
theorem CacheHonest.step {w : World} (hw : CacheHonest lib G w) {o : Call}
    (ho : o.cacheFree) (c : Choice) : CacheHonest lib G (w.step o c).2 := by
  cases o with
  | write op =>
      obtain ⟨s', hs', h⟩ | ⟨e, h⟩ := step_write w op c
      · rw [h]
        cases op with
        | cacheExtraction => exact ho.elim
        | registerChunks =>
            exact hw.of_store lib G (by rw [GraphStore.registerChunks_tables hs']; rfl)
        | upsertRelationships =>
            exact hw.of_store lib G (by rw [GraphStore.upsertRelationships_tables hs']; rfl)
        | linkChunks =>
            exact hw.of_store lib G (by rw [GraphStore.linkChunks_tables hs']; rfl)
        | deleteFileData =>
            exact hw.of_store lib G (by rw [GraphStore.deleteFileData_tables hs']; rfl)
        | purgeFile =>
            intro row hrow
            rw [GraphStore.purgeFile_tables hs'] at hrow
            exact hw row ((Table.mem_deleteWhere ..).mp hrow).1
        | upsertHash =>
            exact hw.of_store lib G (by rw [GraphStore.upsertHash_tables hs']; rfl)
      · rw [h]
        exact hw
  | upsertEntities entities p =>
      obtain ⟨slugs, s', hs', h⟩ | ⟨e, h⟩ := step_upsertEntities w entities p c
      · rw [h]
        exact hw.of_store lib G (by rw [(GraphStore.upsertEntities_tables hs').2]; rfl)
      · rw [h]
        exact hw
  | deletePoints ids =>
      obtain h | ⟨e, reached, h⟩ | ⟨e, h⟩ := step_deletePoints w ids c
      all_goals
        rw [h]
        exact hw
  | upsertPoints points =>
      obtain h | ⟨e, reached, h⟩ | ⟨e, h⟩ := step_upsertPoints w points c
      all_goals
        rw [h]
        exact hw
  | _ => exact hw.of_store lib G (by rw [(step_keeps w rfl c).1])

/-- An honest cache may be replayed for every file. -/
theorem replayable_honest (p : Text) :
    Replayable lib (functionalModel G) (RepliesBy G) p (CacheHonest lib G)
      (fun _ _ => True) where
  generates := fun h => h
  refl := fun _ => trivial
  trans := fun _ _ => trivial
  read := fun c hw ho => ⟨hw.of_store lib G (by rw [(step_keeps _ ho c).1]), trivial⟩
  cached := by
    intro w i digest reply hw hget
    exact hw _ ((GraphStore.getCachedExtraction_eq_some_iff ..).mp hget)
  cache := by
    intro w i digest reply s' hw hanswered hs'
    refine ⟨fun row hrow => ?_, trivial⟩
    rw [GraphStore.cacheExtraction_tables hs'] at hrow
    obtain rfl | ⟨hold, -⟩ := (Table.mem_insertOrReplace ..).mp hrow
    · exact hanswered
    · exact hw row hold

theorem CacheUse.safe (use : CacheUse) {w : World} (hw : CacheHonest lib G w) :
    Safe World.step (RepliesBy G) (CacheHonest lib G) (use.program lib)
      (fun _ w' => CacheHonest lib G w') w := by
  cases use with
  | extract cfg p chunks =>
      refine safe_bind (safe_mono
        ((replayable_honest lib G p).extractEntitiesForFile hw chunks) ?_)
      rintro (e | result) w' ⟨hw', -⟩ <;> exact hw'
  | other o ho =>
      refine safe_bind (safe_perform fun c _ => ⟨hw.step lib G ho c, ?_⟩)
      cases (w.step o c).1 <;> exact hw.step lib G ho c

/-- Without collisions an admitted outcome is the model's answer to the batch. -/
theorem outcome_eq_of_admitted (hinj : Function.Injective lib.sha256) {cfg : Settings}
    {batch : Text} {outcome : Option RawResult}
    (h : BatchOutcome lib (functionalModel G) cfg batch outcome) :
    outcome = if outcome.isNone then none
      else some (parseExtractionResponse cfg.extract.recursionLimit
        (G (batchPayload cfg.extract batch).dumps)) := by
  cases outcome with
  | none => rfl
  | some raw =>
      obtain ⟨reply, ⟨payload, hdigest, hreply⟩, rfl⟩ := h raw rfl
      have hdumps := utf8_injective (hinj hdigest)
      rw [hreply, hdumps]
      rfl

theorem uncachedOutcomes_of_admitted (hinj : Function.Injective lib.sha256) {cfg : Settings}
    {batches : List Text} {outcomes : List (Option RawResult)}
    (h : List.Forall₂ (BatchOutcome lib (functionalModel G) cfg) batches outcomes) :
    outcomes = uncachedOutcomes cfg G batches (outcomes.map Option.isNone) := by
  induction h with
  | nil => rfl
  | cons hout _ ih =>
      rw [List.map_cons, uncachedOutcomes, List.zipWith_cons_cons, ← uncachedOutcomes, ← ih,
        ← outcome_eq_of_admitted lib G hinj hout]

/-- Extraction returns the combined outcomes of its batches. -/
theorem extractEntitiesForFile_eq (cfg : Settings) (chunks : List Text) (p : Text) :
    extractEntitiesForFile lib cfg chunks p =
      (extractBatches lib cfg p (buildBatches cfg.extract.batchTokens chunks)).bind
        fun outcomes => .ret (combineBatches outcomes) := by
  unfold extractEntitiesForFile
  split_ifs with hnil
  · subst hnil
    rfl
  · rfl

/-- The extraction cache is transparent: after any extractions, purges, deletions
and other calls, under any settings and with any calls failing, an extraction
that returns gives what it would give with no cache when the same batches fail. -/
theorem extraction_cache_transparent (hinj : Function.Injective lib.sha256)
    (uses : List (CacheUse × List Choice))
    (hreplies : Guarded (RepliesBy G)
      ((cacheLifetime lib uses).transitions World.step World.empty))
    (cfg : Settings) (p : Text) (chunks : List Text) (cs : List Choice)
    (hreplies' : Guarded (RepliesBy G)
      (transitions World.step (extractEntitiesForFile lib cfg chunks p) cs
        ((cacheLifetime lib uses).final World.step World.empty)))
    {r : Except Failure ExtractionResult} {w' : World}
    (hrun : run World.step (extractEntitiesForFile lib cfg chunks p) cs
      ((cacheLifetime lib uses).final World.step World.empty) = (some r, w')) :
    ∃ outcomes, run World.step
        (extractBatches lib cfg p (buildBatches cfg.extract.batchTokens chunks)) cs
        ((cacheLifetime lib uses).final World.step World.empty) = (some (.ok outcomes), w') ∧
      outcomes = uncachedOutcomes cfg G (buildBatches cfg.extract.batchTokens chunks)
        (outcomes.map Option.isNone) ∧
      r = .ok (uncachedExtraction cfg G chunks (outcomes.map Option.isNone)) := by
  have hempty : CacheHonest lib G World.empty := fun c hc => absurd hc (Table.notMem_empty c)
  have hw := Lifetime.invariant
    (fun u hu w hw => by
      obtain ⟨use, -, rfl⟩ := List.mem_map.mp hu
      exact CacheUse.safe lib G use.1 hw) hreplies hempty
  set w := (cacheLifetime lib uses).final World.step World.empty
  rw [extractEntitiesForFile_eq] at hrun hreplies'
  have hsafe := ((replayable_honest lib G p).extractBatches hw
    (buildBatches cfg.extract.batchTokens chunks)).run hw cs
      (guarded_of_bind World.step hreplies')
  rw [run_bind_ret] at hrun
  obtain ⟨hfst, rfl⟩ := Prod.mk.inj hrun
  obtain ⟨r', hr', rfl⟩ := Option.map_eq_some_iff.mp hfst
  obtain ⟨-, -, outcomes, rfl, hall⟩ := hsafe.2 r' hr'
  have houtcomes := uncachedOutcomes_of_admitted lib G hinj hall
  refine ⟨outcomes, run_eq_of_result World.step hr', houtcomes, ?_⟩
  unfold uncachedExtraction
  split_ifs with hnil
  · subst hnil
    cases hall
    rfl
  · rw [← houtcomes]
    rfl

end Transparency

/-- The sample text extracted once, so that the next call finds it cached. -/
def sampleUses : List (CacheUse × List Choice) :=
  [(.extract sampleSettings samplePath [text "abc"], [.done, .reply sampleReply, .done])]

theorem extraction_cache_transparent_sample :
    (run World.step (extractEntitiesForFile sampleBuiltins sampleSettings [text "abc"]
      samplePath) [.done] ((cacheLifetime sampleBuiltins sampleUses).final World.step
        World.empty)).1 =
      some (.ok (uncachedExtraction sampleSettings (fun _ => sampleReply) [text "abc"]
        [false])) := by
  have hreturns : (run World.step (extractEntitiesForFile sampleBuiltins sampleSettings
      [text "abc"] samplePath) [.done] ((cacheLifetime sampleBuiltins sampleUses).final
        World.step World.empty)).1 =
      some (.ok ⟨[⟨text "abc", none, []⟩], [], false, 0⟩) := by decide +kernel
  obtain ⟨outcomes, houtcomes, -, hresult⟩ := extraction_cache_transparent sampleBuiltins
    (fun _ => sampleReply) latin1_injective sampleUses
    (by unfold Guarded; decide +kernel) sampleSettings samplePath [text "abc"] [.done]
    (by unfold Guarded; decide +kernel) (run_eq_of_result World.step hreturns)
  have hsucceeded : outcomes.map Option.isNone = [false] := by
    have hfailed : ((run World.step (extractBatches sampleBuiltins sampleSettings samplePath
        (buildBatches sampleSettings.extract.batchTokens [text "abc"])) [.done]
        ((cacheLifetime sampleBuiltins sampleUses).final World.step World.empty)).1.map
          fun r => r.map fun outcomes => outcomes.map Option.isNone) =
        some (.ok [false]) := by decide +kernel
    rw [houtcomes] at hfailed
    exact Except.ok.inj (Option.some.inj hfailed)
  rw [hreturns, hresult, hsucceeded]

end LocalGraphRag.Ingest
