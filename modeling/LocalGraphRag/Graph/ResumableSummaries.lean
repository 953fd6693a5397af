import LocalGraphRag.Graph.SummaryRuns

/-!
# Summaries across runs

A run asks the model for the communities whose member hash is on no row that was
stored when it started. Every other community copies a row of then, although its
own round may come after that row was overwritten. A community whose round ended
keeps a row at its current hash in every later state, so no later run on the same
graph asks for it again.

## Implementation notes

Detection depends on the graph alone and each row is written only under the id of
its community, so the communities and their hashes are those of the first
detection, whatever runs were cut short in between.
-/

namespace LocalGraphRag.Graph

open Python Relational Effects

namespace Tables

/-- The same graph, whatever the community column and the summaries hold. -/
structure SameGraph (t u : Tables) : Prop where
  entities : t.clearCommunities.entities = u.clearCommunities.entities
  relationships : t.relationships = u.relationships
  chunkEntities : t.chunkEntities = u.chunkEntities

theorem SameGraph.trans {t u v : Tables} (h : SameGraph t u) (h' : SameGraph u v) :
    SameGraph t v :=
  ⟨h.entities.trans h'.entities, h.relationships.trans h'.relationships,
    h.chunkEntities.trans h'.chunkEntities⟩

/-- Clearing the column forgets what an update wrote to it. -/
theorem clearCommunities_assignCommunities (assignments : List (Nat × Text)) (t : Tables) :
    (t.assignCommunities assignments).clearCommunities.entities =
      t.clearCommunities.entities := by
  induction assignments generalizing t with
  | nil => rfl
  | cons a assignments ih =>
      apply (ih (t.assignCommunities [a])).trans
      refine Table.updateWhere_updateWhere _ _ _ _ _ (fun _ => by rfl) (fun _ => by rfl) ?_
      intro e
      split_ifs <;> rfl

theorem clearCommunities_clearCommunities (t : Tables) :
    t.clearCommunities.clearCommunities.entities = t.clearCommunities.entities := by
  refine Table.updateWhere_updateWhere _ _ _ _ _ (fun _ => by rfl) (fun _ => by rfl) ?_
  intro e
  split_ifs <;> rfl

end Tables

/-- The tables right after `detect_communities`. -/
def Clustering.detected (cluster : Clustering) (t : Tables) : Tables :=
  Graph.detected (cluster.partition t) t

section Graphs
variable {cluster : Clustering} {t u : Tables}

theorem sameGraph_detected : Tables.SameGraph (cluster.detected t) t :=
  ⟨(Tables.clearCommunities_assignCommunities _ _).trans
    (Tables.clearCommunities_clearCommunities t), rfl, rfl⟩

/-- Detection sees the graph alone. -/
theorem Tables.SameGraph.detected (h : Tables.SameGraph t u) :
    Tables.SameEntities (cluster.detected t) (cluster.detected u) := by
  constructor
  · simp only [Clustering.detected, Clustering.partition, Graph.detected,
      Tables.assignCommunities, h.entities, h.relationships, h.chunkEntities]
  · exact h.relationships

end Graphs

/-- A summary is stored for the community, at its hash in `t`. -/
def HasSummary (sha256 : Bytes → Text) (t : Tables) (communityId : Nat) (u : Tables) : Prop :=
  ∃ row ∈ u.communities, row.id = communityId ∧
    row.memberHash = some (currentHash sha256 communityId t)

/-- What holds at every call of a run: the graph is that of `base`, the communities
that succeeded are summarized, and the model was only called where it may be. -/
structure Resumable (sha256 : Bytes → Text) (cluster : Clustering) (base : Tables)
    (allowed : Nat → Prop) (w : SummaryWorld) : Prop where
  graph : Tables.SameGraph w.store.toTables base
  succeeded : ∀ c ∈ w.succeeded, c ∈ (cluster.detected base).activeCommunityIds ∧
    HasSummary sha256 (cluster.detected base) c w.store.toTables
  generated : ∀ c ∈ w.generated, allowed c

/-- The loop after some communities: entities and relationships are those right
after the detection, and rows under other ids are still there. -/
structure Looping (t : Tables) (processed : List Nat) (u : Tables) : Prop where
  same : Tables.SameEntities u t
  kept : ∀ row ∈ t.communities, row.id ∉ processed → row ∈ u.communities

section Rounds
variable {sha256 : Bytes → Text} {cluster : Clustering} {base : Tables} {allowed : Nat → Prop}
  {w : SummaryWorld} {t : Tables} {processed : List Nat} {communityId : Nat}

theorem Looping.mono {u : Tables} (h : Looping t processed u) :
    Looping t (communityId :: processed) u :=
  ⟨h.same, fun row hrow hid => h.kept row hrow fun hp => hid (List.mem_cons_of_mem _ hp)⟩

theorem Looping.put {u : Tables} {row : CommunityRow} (h : Looping t processed u)
    (hid : row.id = communityId) :
    Looping t (communityId :: processed) (u.putCommunity row) := by
  subst hid
  refine ⟨⟨h.same.entities, h.same.relationships⟩, fun x hx hid => ?_⟩
  simp only [List.mem_cons, not_or] at hid
  exact (Table.mem_insertOrReplace ..).mpr (Or.inr ⟨h.kept x hx hid.2, hid.1⟩)

/-- The rows for other communities are left alone. -/
theorem HasSummary.put {row : CommunityRow} {u : Tables} (c : Nat)
    (hrow : row.memberHash = some (currentHash sha256 row.id t))
    (h : c = row.id ∨ HasSummary sha256 t c u) :
    HasSummary sha256 t c (u.putCommunity row) := by
  by_cases hc : c = row.id
  · subst hc
    exact ⟨row, (Table.mem_insertOrReplace ..).mpr (Or.inl rfl), rfl, hrow⟩
  · obtain ⟨x, hx, rfl, hhash⟩ := h.resolve_left hc
    exact ⟨x, (Table.mem_insertOrReplace ..).mpr (Or.inr ⟨hx, hc⟩), rfl, hhash⟩

theorem Resumable.put {s : GraphStore} {row : CommunityRow}
    (h : Resumable sha256 cluster base allowed w)
    (hs : s.toTables = w.store.toTables.putCommunity row)
    (hrow : row.memberHash = some (currentHash sha256 row.id (cluster.detected base))) :
    Resumable sha256 cluster base allowed { w with store := s } := by
  refine ⟨?_, fun c hc => ⟨(h.succeeded c hc).1, ?_⟩, h.generated⟩
  · rw [hs]
    exact ⟨h.graph.entities, h.graph.relationships, h.graph.chunkEntities⟩
  · rw [hs]
    exact HasSummary.put c hrow (Or.inr (h.succeeded c hc).2)

theorem upsertCommunity_tables {s s' : GraphStore} {summary memberHash : Text}
    {entityIds : List Text} {embedding : Option Bytes}
    (h : s.upsertCommunity communityId summary entityIds memberHash embedding = .ok s') :
    s'.toTables = s.toTables.putCommunity
      ⟨communityId, summary, entityIds, some memberHash, embedding⟩ :=
  GraphStore.transaction_tables (GraphStore.bindText_bind_eq_ok.mp h).2

/-- What one round leaves, whether it raised or not. -/
structure AfterRound (sha256 : Bytes → Text) (cluster : Clustering) (base : Tables)
    (allowed : Nat → Prop) (t : Tables) (processed : List Nat) (communityId : Nat)
    (asked : Bool) (w : SummaryWorld) (r : Except SummaryFailure Bool) (w' : SummaryWorld) :
    Prop where
  resumable : Resumable sha256 cluster base allowed w'
  looping : Looping t (communityId :: processed) w'.store.toTables
  generated : w'.generated = w.generated ++ if asked then [communityId] else []
  succeeded : w'.succeeded = w.succeeded
  summarized : ∀ generated, r = .ok generated → HasSummary sha256 t communityId w'.store.toTables

variable (hw : Resumable sha256 cluster base allowed w)
  (hloop : Looping t processed w.store.toTables)
  (ht : Tables.SameEntities t (cluster.detected base))

include hw hloop ht

/-- A summary under the current hash, written as the last call of a round. -/
theorem upsertCommunity_safe (summary : Text) (entityIds : List Text)
    (embedding : Option Bytes) (generated : Bool) :
    Safe (SummaryWorld.step cluster) (fun _ _ _ => True)
      (Resumable sha256 cluster base allowed)
      ((Prog.perform (SummaryCall.upsertCommunity communityId summary entityIds
        (currentHash sha256 communityId t) embedding)).bind fun _ => .ret generated)
      (AfterRound sha256 cluster base allowed t processed communityId false w) w := by
  have hfailed : ∀ e, AfterRound sha256 cluster base allowed t processed communityId false w
      (.error e) w := fun e => ⟨hw, hloop.mono, by simp, rfl, by simp⟩
  apply safe_perform_bind
  intro c _
  cases c with
  | done =>
      cases hput : w.store.upsertCommunity communityId summary entityIds
          (currentHash sha256 communityId t) embedding with
      | error e =>
          simp only [SummaryWorld.step, hput, SummaryWorld.commit, thenPost_error]
          exact ⟨hw, hfailed _⟩
      | ok s =>
          simp only [SummaryWorld.step, hput, SummaryWorld.commit, thenPost_ok, safe_ret]
          have hs := upsertCommunity_tables hput
          have hresumable := hw.put hs (congrArg some (ht.currentHash sha256 communityId))
          refine ⟨hresumable, hresumable, ?_, by simp, rfl, fun _ _ => ?_⟩
          · rw [hs]
            exact hloop.put rfl
          · rw [hs]
            exact HasSummary.put communityId rfl (Or.inl rfl)
  | _ => exact ⟨hw, hfailed _⟩

/-- A round calls the model when there is no row to reuse, and then only. -/
theorem reuseOrGenerate_safe (hnew : communityId ∉ processed) (entityIds : List Text)
    {prior : Option CommunityRow}
    (hprior : ∀ row, prior = some row → row ∈ t.communities ∧
      row.memberHash = some (currentHash sha256 communityId t))
    (hallowed : prior = none → allowed communityId) :
    Safe (SummaryWorld.step cluster) (fun _ _ _ => True)
      (Resumable sha256 cluster base allowed)
      (Summarizer.reuseOrGenerate communityId entityIds (currentHash sha256 communityId t) prior)
      (AfterRound sha256 cluster base allowed t processed communityId prior.isNone w) w := by
  cases prior with
  | some row =>
      obtain ⟨hrow, hhash⟩ := hprior row rfl
      simp only [Summarizer.reuseOrGenerate]
      split_ifs with hid
      · refine ⟨hw, hloop.mono, by simp, rfl, fun _ _ => ⟨row, hloop.kept row hrow ?_, hid, hhash⟩⟩
        rwa [hid]
      · exact upsertCommunity_safe hw hloop ht row.summary entityIds row.embedding false
  | none =>
      -- from here on the call counts, whether it answers or raises
      set asking : SummaryWorld := { w with generated := w.generated ++ [communityId] }
      have hasking : Resumable sha256 cluster base allowed asking := by
        refine ⟨hw.graph, hw.succeeded, fun c hc => ?_⟩
        obtain hc | hc := List.mem_append.mp hc
        · exact hw.generated c hc
        · rw [List.mem_singleton.mp hc]
          exact hallowed rfl
      have hfailed : ∀ e, AfterRound sha256 cluster base allowed t processed communityId true w
          (.error e) asking := fun e => ⟨hasking, hloop.mono, rfl, rfl, by simp⟩
      apply safe_perform_bind
      intro c _
      cases c with
      | reply r =>
          refine ⟨hasking, ?_⟩
          rw [SummaryWorld.step, thenPost_ok]
          apply safe_perform_bind
          intro c' _
          cases c' with
          | embedding b =>
              refine ⟨hasking, ?_⟩
              apply safe_mono (upsertCommunity_safe hasking hloop ht (strip r) entityIds
                (some b) true)
              intro r' w' h
              exact ⟨h.resumable, h.looping, by simp [h.generated, asking], h.succeeded,
                h.summarized⟩
          | _ => exact ⟨hasking, hfailed _⟩
      | _ => exact ⟨hasking, hfailed _⟩

/-- The row a round may reuse. -/
def priorRow (previous : Text → Option CommunityRow) (force : Bool) (memberHash : Text) :
    Option CommunityRow :=
  if force then none else previous memberHash

variable {previous : Text → Option CommunityRow} {force : Bool}

theorem summarizeCommunity_safe (hactive : communityId ∈ t.activeCommunityIds)
    (hnew : communityId ∉ processed)
    (hprevious : ∀ hash row, previous hash = some row →
      row ∈ t.communities ∧ row.memberHash = some hash)
    (hallowed : priorRow previous force (currentHash sha256 communityId t) = none →
      allowed communityId) :
    Safe (SummaryWorld.step cluster) (fun _ _ _ => True)
      (Resumable sha256 cluster base allowed)
      (Summarizer.summarizeCommunity sha256 communityId
        (if force then none else some previous) force)
      (AfterRound sha256 cluster base allowed t processed communityId
        (priorRow previous force (currentHash sha256 communityId t)).isNone w) w := by
  have hne : w.store.entitiesForCommunity communityId ≠ [] := by
    rwa [← Tables.mem_activeCommunityIds, hloop.same.activeCommunityIds]
  have hhash := hloop.same.currentHash sha256 communityId
  apply safe_perform_bind
  intro c _
  refine ⟨hw, ?_⟩
  rw [SummaryWorld.step, thenPost_ok, if_neg hne]
  apply safe_perform_bind
  intro c' _
  refine ⟨hw, ?_⟩
  rw [SummaryWorld.step, thenPost_ok]
  change Safe _ _ _ ((Summarizer.priorSummary _ force
    (currentHash sha256 communityId w.store.toTables)).bind fun prior =>
      Summarizer.reuseOrGenerate communityId _
        (currentHash sha256 communityId w.store.toTables) prior) _ w
  have hread : Summarizer.priorSummary (if force then none else some previous) force
      (currentHash sha256 communityId w.store.toTables) =
        .ret (priorRow previous force (currentHash sha256 communityId t)) := by
    rw [hhash]
    cases force <;> rfl
  rw [hread, Prog.ret_bind, hhash]
  apply reuseOrGenerate_safe hw hloop ht hnew _ _ hallowed
  intro row hrow
  unfold priorRow at hrow
  split_ifs at hrow
  exact hprevious _ row hrow

omit hw hloop ht

/-- The loop over some communities, from the world `w`. -/
structure AfterRounds (sha256 : Bytes → Text) (cluster : Clustering) (base : Tables)
    (allowed : Nat → Prop) (t : Tables) (previous : Text → Option CommunityRow) (force : Bool)
    (w : SummaryWorld) (processed : List Nat) (counts : SummaryCounts) (w' : SummaryWorld) :
    Prop where
  resumable : Resumable sha256 cluster base allowed w'
  looping : Looping t processed.reverse w'.store.toTables
  generated : w'.generated = w.generated ++ processed.filter fun c =>
    (priorRow previous force (currentHash sha256 c t)).isNone
  succeeded : counts.failed = 0 → ∀ c ∈ processed, c ∈ w'.succeeded

theorem summarizeOne_safe {counts : SummaryCounts} {w' : SummaryWorld}
    (ht : Tables.SameEntities t (cluster.detected base))
    (h : AfterRounds sha256 cluster base allowed t previous force w processed counts w')
    (hactive : communityId ∈ t.activeCommunityIds) (hnew : communityId ∉ processed)
    (hprevious : ∀ hash row, previous hash = some row →
      row ∈ t.communities ∧ row.memberHash = some hash)
    (hallowed : priorRow previous force (currentHash sha256 communityId t) = none →
      allowed communityId) :
    Safe (SummaryWorld.step cluster) (fun _ _ _ => True)
      (Resumable sha256 cluster base allowed)
      (Summarizer.summarizeOne sha256 (if force then none else some previous) force counts
        communityId)
      (fun r w'' => ∃ counts', r = .ok counts' ∧
        AfterRounds sha256 cluster base allowed t previous force w (processed ++ [communityId])
          counts' w'') w' := by
  have hround := summarizeCommunity_safe
    h.resumable h.looping ht hactive (fun hp => hnew (List.mem_reverse.mp hp)) hprevious hallowed
  have hafter : ∀ {r w''}, AfterRound sha256 cluster base allowed t processed.reverse communityId
      (priorRow previous force (currentHash sha256 communityId t)).isNone w' r w'' →
      w''.generated = w.generated ++ (processed ++ [communityId]).filter fun c =>
        (priorRow previous force (currentHash sha256 c t)).isNone := by
    intro r w'' hr
    rw [hr.generated, h.generated, List.filter_append, List.append_assoc,
      List.filter_singleton, Bool.cond_eq_ite]
  apply safe_orElse
  apply safe_bind
  apply safe_mono hround
  intro r w'' hr
  cases r with
  | error e =>
      rw [thenPost_error]
      refine ⟨_, rfl, hr.resumable, ?_, hafter hr, by simp⟩
      rw [List.reverse_append]
      exact hr.looping
  | ok generated =>
      rw [thenPost_ok]
      have hsucceeded : Resumable sha256 cluster base allowed
          { w'' with succeeded := w''.succeeded ++ [communityId] } := by
        refine ⟨hr.resumable.graph, fun c hc => ?_, hr.resumable.generated⟩
        obtain hc | hc := List.mem_append.mp hc
        · exact hr.resumable.succeeded c hc
        · rw [List.mem_singleton.mp hc, ← ht.activeCommunityIds]
          obtain ⟨row, hrow, hid, hhash⟩ := hr.summarized generated rfl
          exact ⟨hactive, row, hrow, hid, by rw [hhash, ht.currentHash]⟩
      apply safe_perform_bind
      intro c _
      refine ⟨hsucceeded, ?_⟩
      rw [SummaryWorld.step, thenPost_ok]
      have hgenerated := hafter hr
      refine ⟨_, rfl, hsucceeded, ?_, hgenerated, fun hfailed c hc => ?_⟩
      · rw [List.reverse_append]
        exact hr.looping
      · have hcounts : counts.failed = 0 := by
          cases generated <;> exact hfailed
        rw [hr.succeeded]
        obtain hc | hc := List.mem_append.mp hc
        · exact List.mem_append_left _ (h.succeeded hcounts c hc)
        · exact List.mem_append_right _ hc

end Rounds

section Runs
variable {sha256 : Bytes → Text} {cluster : Clustering} {base : Tables} {allowed : Nat → Prop}
  {w : SummaryWorld}

theorem summariesByHash_eq_none_iff {s : GraphStore} {hash : Text} (hne : hash ≠ []) :
    s.summariesByHash hash = none ↔ ∀ row ∈ s.communities, row.memberHash ≠ some hash := by
  unfold GraphStore.summariesByHash
  rw [List.getLast?_eq_none_iff, List.filter_eq_nil_iff]
  simp [hne]

/-- The communities for which a run that starts from `s` asks the model. -/
def Asked (sha256 : Bytes → Text) (cluster : Clustering) (base : Tables) (force : Bool)
    (s : GraphStore) (communityId : Nat) : Prop :=
  force = true ∨ ∀ row ∈ s.communities,
    row.memberHash ≠ some (currentHash sha256 communityId (cluster.detected base))

instance (sha256 : Bytes → Text) (cluster : Clustering) (base : Tables) (force : Bool)
    (s : GraphStore) (communityId : Nat) :
    Decidable (Asked sha256 cluster base force s communityId) :=
  inferInstanceAs (Decidable (_ ∨ _))

theorem not_asked_of_hasSummary {s : GraphStore} {communityId : Nat}
    (h : HasSummary sha256 (cluster.detected base) communityId s.toTables) :
    ¬ Asked sha256 cluster base false s communityId := by
  obtain ⟨row, hrow, -, hhash⟩ := h
  rintro (h | h)
  · cases h
  · exact h row hrow hhash

theorem priorRow_eq_none_iff (hsha : ∀ b, sha256 b ≠ []) {force : Bool} {s : GraphStore}
    {communityId : Nat} :
    priorRow s.summariesByHash force
        (currentHash sha256 communityId (cluster.detected base)) = none ↔
      Asked sha256 cluster base force s communityId := by
  have hne : currentHash sha256 communityId (cluster.detected base) ≠ [] := hsha _
  unfold priorRow Asked
  rw [← summariesByHash_eq_none_iff hne]
  cases force <;> simp

/-- Dropping the rows of other ids keeps every summary of an active community. -/
theorem Resumable.deleteStale {s : GraphStore} (h : Resumable sha256 cluster base allowed w)
    (hs : s.toTables = w.store.toTables.deleteStaleCommunities)
    (hactive : w.store.toTables.activeCommunityIds =
      (cluster.detected base).activeCommunityIds) :
    Resumable sha256 cluster base allowed { w with store := s } := by
  refine ⟨?_, fun c hc => ⟨(h.succeeded c hc).1, ?_⟩, h.generated⟩
  · rw [hs]
    exact ⟨h.graph.entities, h.graph.relationships, h.graph.chunkEntities⟩
  · obtain ⟨hmem, row, hrow, rfl, hhash⟩ := h.succeeded c hc
    rw [hs]
    refine ⟨row, (Table.mem_deleteWhere ..).mpr ⟨hrow, ?_⟩, rfl, hhash⟩
    rwa [hactive, not_not]

/-- The store right after the detection of a run on the graph of `base`. -/
theorem Resumable.detect {s : GraphStore} (h : Resumable sha256 cluster base allowed w)
    (hs : s.toTables = cluster.detected w.store.toTables) :
    Resumable sha256 cluster base allowed { w with store := s } := by
  refine ⟨?_, fun c hc => ⟨(h.succeeded c hc).1, ?_⟩, h.generated⟩
  · rw [hs]
    exact sameGraph_detected.trans h.graph
  · rw [hs]
    exact (h.succeeded c hc).2

/-- What a run that returns has done. -/
structure Completed (sha256 : Bytes → Text) (cluster : Clustering) (base : Tables)
    (force : Bool) (w : SummaryWorld) (counts : SummaryCounts) (w' : SummaryWorld) : Prop where
  generated : w'.generated = w.generated ++
    (orderBy (cluster.detected base).activeCommunityIds).filter fun c =>
      Asked sha256 cluster base force w.store c
  succeeded : counts.failed = 0 →
    ∀ c ∈ (cluster.detected base).activeCommunityIds, c ∈ w'.succeeded

/-- The end of a run, after the loop went over all active communities. -/
theorem deleteStaleCommunities_safe {t : Tables} {previous : Text → Option CommunityRow}
    {force : Bool} {counts : SummaryCounts} {w₀ w' : SummaryWorld}
    (ht : Tables.SameEntities t (cluster.detected base))
    (hasked : ∀ c, priorRow previous force (currentHash sha256 c t) = none ↔
      Asked sha256 cluster base force w.store c)
    (h : AfterRounds sha256 cluster base allowed t previous force w₀
      (orderBy t.activeCommunityIds) counts w')
    (hstart : w₀.generated = w.generated) :
    Safe (SummaryWorld.step cluster) (fun _ _ _ => True)
      (Resumable sha256 cluster base allowed)
      ((Prog.perform SummaryCall.deleteStaleCommunities).bind fun _ => .ret counts)
      (fun r w'' => Resumable sha256 cluster base allowed w'' ∧
        ∀ counts', r = .ok counts' → Completed sha256 cluster base force w counts' w'') w' := by
  have hcompleted : ∀ s, Completed sha256 cluster base force w counts
      { w' with store := s } := by
    intro s
    constructor
    · rw [h.generated, hstart, ← ht.activeCommunityIds]
      congr 1
      apply List.filter_congr
      intro c _
      rw [Bool.eq_iff_iff, Option.isNone_iff_eq_none, decide_eq_true_eq]
      exact hasked c
    · intro hfailed c hc
      rw [← ht.activeCommunityIds] at hc
      exact h.succeeded hfailed c (mem_orderBy.mpr hc)
  apply safe_perform_bind
  intro c _
  cases c with
  | done =>
      obtain ⟨s, hdelete, hs⟩ := deleteStaleCommunities_ok w'.store
      simp only [SummaryWorld.step, hdelete, SummaryWorld.commit, thenPost_ok, safe_ret]
      have hresumable : Resumable sha256 cluster base allowed { w' with store := s } :=
        h.resumable.deleteStale hs
          (h.looping.same.activeCommunityIds.trans ht.activeCommunityIds)
      refine ⟨hresumable, hresumable, ?_⟩
      rintro _ ⟨⟩
      exact hcompleted s
  | _ => exact ⟨h.resumable, h.resumable, by simp⟩

/-- A run keeps every community summarized that ever was, and calls the model for
the communities that it finds no row for. -/
theorem summarizeAllCommunities_safe (hsha : ∀ b, sha256 b ≠ []) (force : Bool)
    (hw : Resumable sha256 cluster base allowed w)
    (hallowed : ∀ c ∈ (cluster.detected base).activeCommunityIds,
      Asked sha256 cluster base force w.store c → allowed c) :
    Safe (SummaryWorld.step cluster) (fun _ _ _ => True)
      (Resumable sha256 cluster base allowed)
      (Summarizer.summarizeAllCommunities sha256 force)
      (fun r w' => Resumable sha256 cluster base allowed w' ∧
        ∀ counts, r = .ok counts → Completed sha256 cluster base force w counts w') w := by
  have hfailed : ∀ {e w'}, Resumable sha256 cluster base allowed w' →
      Resumable sha256 cluster base allowed w' ∧ ∀ counts,
        (Except.error e : Except SummaryFailure SummaryCounts) = .ok counts →
          Completed sha256 cluster base force w counts w' := fun h => ⟨h, by simp⟩
  have hread : Safe (SummaryWorld.step cluster) (fun _ _ _ => True)
      (Resumable sha256 cluster base allowed) (Summarizer.previousSummaries force)
      (fun r w' => r = .ok (if force then none else some w.store.summariesByHash) ∧ w' = w) w := by
    cases force with
    | true => exact ⟨rfl, rfl⟩
    | false =>
        intro c _
        exact ⟨hw, rfl, rfl⟩
  apply safe_bind
  apply safe_mono hread
  intro r w₁ hr
  rw [hr.1, hr.2, thenPost_ok]
  apply safe_perform_bind
  intro c _
  cases c with
  | done =>
      obtain ⟨s, hdetect, hs⟩ := detectCommunities_ok
        (cluster.partition w.store.toTables) w.store
      have hdetected : Resumable sha256 cluster base allowed { w with store := s } :=
        hw.detect hs
      have ht : Tables.SameEntities s.toTables (cluster.detected base) := by
        rw [hs]
        exact hw.graph.detected
      simp only [SummaryWorld.step, hdetect, SummaryWorld.commit, thenPost_ok]
      refine ⟨hdetected, ?_⟩
      apply safe_perform_bind
      intro c' _
      refine ⟨hdetected, ?_⟩
      rw [SummaryWorld.step, thenPost_ok]
      apply safe_bind
      have hprevious : ∀ hash row, w.store.summariesByHash hash = some row →
          row ∈ s.communities ∧ row.memberHash = some hash := by
        rw [hs]
        exact fun hash row h => GraphStore.of_summariesByHash h
      have hasked : ∀ c, priorRow w.store.summariesByHash force (currentHash sha256 c s.toTables) =
          none ↔ Asked sha256 cluster base force w.store c := by
        intro c
        rw [ht.currentHash]
        exact priorRow_eq_none_iff hsha
      apply safe_foldlM (fun done counts w' => AfterRounds sha256 cluster base allowed s.toTables
        w.store.summariesByHash force { w with store := s } done counts w') (fun _ _ => False)
      · exact ⟨hdetected, ⟨⟨rfl, rfl⟩, fun row hrow _ => hrow⟩, by simp, by simp⟩
      · intro r w' h
        cases r with
        | error e => exact h.elim
        | ok counts => exact deleteStaleCommunities_safe ht hasked h rfl
      · intro done c rest hids counts w' h
        have hactive : c ∈ s.activeCommunityIds := by
          rw [← mem_orderBy, hids]
          simp
        have hnew : c ∉ done := by
          have hnodup := nodup_orderBy s.activeCommunityIds
          rw [hids] at hnodup
          exact fun hc => (List.disjoint_of_nodup_append hnodup) hc (by simp)
        apply safe_mono (summarizeOne_safe ht h hactive hnew hprevious fun hprior => hallowed c
          (ht.activeCommunityIds ▸ hactive) ((hasked c).mp hprior))
        rintro _ w'' ⟨counts', rfl, h'⟩
        exact h'
  | _ => exact ⟨hw, hfailed hw⟩

variable (sha256 cluster) in
/-- Runs of the summarizer, each forced or not and each cut by its own script. -/
def summarizerRuns (runs : List (Bool × List SummaryChoice)) :
    Lifetime SummaryCall SummaryCall.Ret SummaryFailure SummaryCounts SummaryChoice :=
  runs.map fun r => (Summarizer.summarizeAllCommunities sha256 r.1, r.2)

variable (sha256 cluster) in
/-- The world in which a run that starts from `s` was cut or ended. -/
def summarizerRun (force : Bool) (script : List SummaryChoice) (s : GraphStore) :
    Option (Except SummaryFailure SummaryCounts) × SummaryWorld :=
  run (SummaryWorld.step cluster) (Summarizer.summarizeAllCommunities sha256 force) script
    ⟨s, [], []⟩

theorem resumable_start (s : GraphStore) :
    Resumable sha256 cluster s.toTables allowed ⟨s, [], []⟩ :=
  ⟨⟨rfl, rfl, rfl⟩, by simp, by simp⟩

variable (cluster) in
/-- After any runs on the graph of `s`, however they ended, the communities that
succeeded are summarized. -/
theorem resumable_runs (hsha : ∀ b, sha256 b ≠ []) (s : GraphStore)
    (runs : List (Bool × List SummaryChoice)) :
    Resumable sha256 cluster s.toTables (fun _ => True)
      ((summarizerRuns sha256 runs).final (SummaryWorld.step cluster) ⟨s, [], []⟩) := by
  apply Lifetime.invariant _ (guarded_true _) (resumable_start s)
  intro r hr w hw
  obtain ⟨x, -, rfl⟩ := List.mem_map.mp hr
  apply safe_mono (summarizeAllCommunities_safe hsha x.1 hw fun _ _ _ => trivial)
  exact fun _ _ h => h.1

/-- Where a run starts on the graph of `base`, it asks for active communities without
a row. -/
theorem generated_asked (hsha : ∀ b, sha256 b ≠ []) {s : GraphStore}
    (hgraph : Tables.SameGraph s.toTables base) (force : Bool) (script : List SummaryChoice) :
    ∀ c ∈ (summarizerRun sha256 cluster force script s).2.generated,
      c ∈ (cluster.detected base).activeCommunityIds ∧
        Asked sha256 cluster base force s c := by
  have hstart : Resumable sha256 cluster base
      (fun c => c ∈ (cluster.detected base).activeCommunityIds ∧
        Asked sha256 cluster base force s c) ⟨s, [], []⟩ := ⟨hgraph, by simp, by simp⟩
  have hsafe := summarizeAllCommunities_safe hsha force hstart fun _ hc h => ⟨hc, h⟩
  exact (hsafe.run hstart script (guarded_true _)).1.generated

/-- A run that returns asked for exactly the active communities without a row. -/
theorem generated_of_completed (hsha : ∀ b, sha256 b ≠ []) {s : GraphStore} {force : Bool}
    {script : List SummaryChoice} {counts : SummaryCounts}
    (h : (summarizerRun sha256 cluster force script s).1 = some (.ok counts)) :
    Completed sha256 cluster s.toTables force ⟨s, [], []⟩ counts
      (summarizerRun sha256 cluster force script s).2 := by
  have hstart : Resumable sha256 cluster s.toTables (fun _ => True) ⟨s, [], []⟩ :=
    resumable_start s
  have hsafe := summarizeAllCommunities_safe hsha force hstart fun _ _ _ => trivial
  exact ((hsafe.run hstart script (guarded_true _)).2 _ h).2 counts rfl

/-- A run that returns calls the model once for each active community whose hash is on
no row of its start, in the order of the ids. After any runs on one graph, cut or
failed anywhere, no unforced run calls it for a community that succeeded before; after
a run without failures, for none. -/
theorem summaries_resumable (hsha : ∀ b, sha256 b ≠ []) (cluster : Clustering)
    (s : GraphStore) :
    (∀ script counts, (summarizerRun sha256 cluster false script s).1 = some (.ok counts) →
      (summarizerRun sha256 cluster false script s).2.generated =
        (orderBy (cluster.detected s.toTables).activeCommunityIds).filter fun c =>
          ∀ row ∈ s.communities, row.memberHash ≠
            some (currentHash sha256 c (cluster.detected s.toTables))) ∧
    (∀ (runs : List (Bool × List SummaryChoice)) (script : List SummaryChoice),
      let w := (summarizerRuns sha256 runs).final (SummaryWorld.step cluster) ⟨s, [], []⟩
      ∀ c ∈ w.succeeded, c ∉ (summarizerRun sha256 cluster false script w.store).2.generated) ∧
    (∀ force script counts, (summarizerRun sha256 cluster force script s).1 = some (.ok counts) →
      counts.failed = 0 → ∀ later,
        (summarizerRun sha256 cluster false later
          (summarizerRun sha256 cluster force script s).2.store).2.generated = []) := by
  refine ⟨fun script counts h => ?_, fun runs script c hc hgenerated => ?_,
    fun force script counts h hfailed later => ?_⟩
  · rw [(generated_of_completed hsha h).generated, List.nil_append]
    apply List.filter_congr
    intro c _
    simp only [Asked, Bool.false_eq_true, false_or]
  · have hruns := resumable_runs cluster hsha s runs
    have hasked := (generated_asked hsha hruns.graph false script c hgenerated).2
    exact not_asked_of_hasSummary (hruns.succeeded c hc).2 hasked
  · have hcompleted := generated_of_completed hsha h
    have hrun := resumable_runs cluster hsha s [(force, script)]
    apply List.eq_nil_iff_forall_not_mem.mpr
    intro c hgenerated
    obtain ⟨hactive, hasked⟩ := generated_asked hsha hrun.graph false later c hgenerated
    exact not_asked_of_hasSummary
      (hrun.succeeded c (hcompleted.succeeded hfailed c hactive)).2 hasked

end Runs

section Sample

/-- Texts as their own digests, none of them empty. -/
def nonemptyDigest (b : Bytes) : Text := 0x30 :: latin1 b

/-- One community, which the model and the embedder answer for. -/
def firstRun (s : GraphStore) :
    Option (Except SummaryFailure SummaryCounts) × SummaryWorld :=
  summarizerRun nonemptyDigest (fun _ _ => [[text "c", text "d"]]) false
    [.done, .done, .done, .done, .done, .reply (text "summary"), .embedding [], .done, .done,
      .done] s

theorem summaries_resumable_sample : ∃ s, oldPair = .ok s ∧
    (firstRun s).2.generated = [0] ∧ ∀ later,
      (summarizerRun nonemptyDigest (fun _ _ => [[text "c", text "d"]]) false later
        (firstRun s).2.store).2.generated = [] := by
  have hrun : oldPair.toOption.any (fun s =>
      (firstRun s).2.generated = [0] ∧
        (firstRun s).1.any fun r => r.toOption.any fun c => c = ⟨1, 0, 0⟩) = true := by
    decide +kernel
  obtain ⟨s, hs, hrun⟩ := exists_ok_of_any hrun
  rw [decide_eq_true_eq] at hrun
  obtain ⟨r, hr, hresult⟩ := (Option.any_eq_true ..).mp hrun.2
  obtain ⟨counts, rfl, hcounts⟩ := exists_ok_of_any hresult
  rw [decide_eq_true_eq] at hcounts
  exact ⟨s, hs, hrun.1, (summaries_resumable (fun b => List.cons_ne_nil _ _) _ s).2.2 false _
    counts hr (by rw [hcounts])⟩

end Sample

end LocalGraphRag.Graph
