import LocalGraphRag.Effects.Safety
import LocalGraphRag.Graph.CurrentSummaries

/-!
# The summarizer process

`summarize_all_communities` as a program over the calls that leave the process,
so that a run can be cut or fail at any of them.

## Implementation notes

A choice that does not answer a call makes it raise. Reads see the last commit
and wait for no lock, so they always answer. The clustering is a function of the
tables that it reads. What `summarize_community` writes when no call is cut short
is already known from the functions over the store, so the two are compared.
-/

namespace LocalGraphRag.Graph

open Python Relational Effects

/-- A call that leaves the summarizer. `count` only marks that a round of the loop
ended without an exception. -/
inductive SummaryCall where
  | getCommunities
  | detectCommunities
  | getActiveCommunityIds
  | getEntitiesForCommunity (communityId : Nat)
  | getRelationshipsForCommunity (communityId : Nat)
  | generate (communityId : Nat)
  | embed (summary : Text)
  | upsertCommunity (communityId : Nat) (summary : Text) (entityIds : List Text)
      (memberHash : Text) (embedding : Option Bytes)
  | count (communityId : Nat)
  | deleteStaleCommunities

/-- What a call returns. -/
abbrev SummaryCall.Ret : SummaryCall → Type
  | getCommunities => List CommunityRow
  | getActiveCommunityIds => Finset Nat
  | getEntitiesForCommunity _ => List EntityRow
  | getRelationshipsForCommunity _ => List CommunityEdge
  | generate _ => Text
  | embed _ => Bytes
  | _ => Unit

/-- The environment's choice at a call. -/
inductive SummaryChoice where
  | done
  | fault
  | reply (r : Text)
  | embedding (b : Bytes)

/-- The store, and two history variables that no program reads: the communities
the model was called for, and those whose round ended without an exception. -/
@[ext] structure SummaryWorld where
  store : GraphStore
  generated : List Nat
  succeeded : List Nat

/-- The clustering, from the relationships and the chunk links. -/
abbrev Clustering := Finset RelationshipRow → Finset LinkRow → List (List Text)

/-- The partition that `detect_communities` computes. -/
def Clustering.partition (cluster : Clustering) (t : Tables) : List (List Text) :=
  cluster t.relationships.rows t.chunkEntities.rows

namespace SummaryWorld

/-- The outcome of a transaction: a failed one changes nothing. -/
def commit (w : SummaryWorld) :
    Except StoreError GraphStore → Except SummaryFailure Unit × SummaryWorld
  | .ok s => (.ok (), { w with store := s })
  | .error e => (.error (.store e), w)

/-- One call under one choice. -/
def step (cluster : Clustering) (w : SummaryWorld) :
    (o : SummaryCall) → SummaryChoice → Except SummaryFailure o.Ret × SummaryWorld
  | .getCommunities, _ => (.ok w.store.communities.scan, w)
  | .getActiveCommunityIds, _ => (.ok w.store.activeCommunityIds, w)
  | .getEntitiesForCommunity communityId, _ =>
      (.ok (w.store.entitiesForCommunity communityId), w)
  | .getRelationshipsForCommunity communityId, _ =>
      (.ok (w.store.relationshipsForCommunity communityId), w)
  | .generate communityId, .reply r =>
      (.ok r, { w with generated := w.generated ++ [communityId] })
  | .generate communityId, _ =>
      (.error .call, { w with generated := w.generated ++ [communityId] })
  | .embed _, .embedding b => (.ok b, w)
  | .count communityId, _ => (.ok (), { w with succeeded := w.succeeded ++ [communityId] })
  | .detectCommunities, .done =>
      w.commit (w.store.detectCommunities (cluster.partition w.store.toTables))
  | .upsertCommunity communityId summary entityIds memberHash embedding, .done =>
      w.commit (w.store.upsertCommunity communityId summary entityIds memberHash embedding)
  | .deleteStaleCommunities, .done => w.commit w.store.deleteStaleCommunities
  | _, _ => (.error .call, w)

end SummaryWorld

/-- A program of the summarizer process. -/
abbrev Summarizer := Prog SummaryCall SummaryCall.Ret SummaryFailure

namespace Summarizer
variable (sha256 : Bytes → Text)

open Prog (perform)

/-- `_summaries_by_hash`. -/
def summariesByHash : Summarizer (Text → Option CommunityRow) := do
  let rows ← perform SummaryCall.getCommunities
  return fun memberHash =>
    (rows.filter fun c => c.memberHash = some memberHash ∧ memberHash ≠ []).getLast?

/-- The stored row whose summary `summarize_community` may reuse. -/
def priorSummary (previous : Option (Text → Option CommunityRow)) (force : Bool)
    (newHash : Text) : Summarizer (Option CommunityRow) :=
  if force then return none
  else match previous with
    | some previous => return previous newHash
    | none => do
        let previous ← summariesByHash
        return previous newHash

/-- What `summarize_community` does once it knows which row to reuse, if any. -/
def reuseOrGenerate (communityId : Nat) (entityIds : List Text) (newHash : Text) :
    Option CommunityRow → Summarizer Bool
  | some prior =>
      if prior.id = communityId then return false
      else do
        perform (SummaryCall.upsertCommunity communityId prior.summary entityIds newHash
          prior.embedding)
        return false
  | none => do
      let reply ← perform (SummaryCall.generate communityId)
      let summary := strip reply
      let embedding ← perform (SummaryCall.embed summary)
      perform (SummaryCall.upsertCommunity communityId summary entityIds newHash
        (some embedding))
      return true

def summarizeCommunity (communityId : Nat)
    (previous : Option (Text → Option CommunityRow)) (force : Bool) : Summarizer Bool := do
  let entities ← perform (SummaryCall.getEntitiesForCommunity communityId)
  if entities = [] then return false
  else
    let relationships ← perform (SummaryCall.getRelationshipsForCommunity communityId)
    let newHash := computeMemberHash sha256 entities relationships
    let prior ← priorSummary previous force newHash
    reuseOrGenerate communityId (entities.map EntityRow.id) newHash prior

/-- One round of the loop: any exception is a failed community. -/
def summarizeOne (previous : Option (Text → Option CommunityRow)) (force : Bool)
    (counts : SummaryCounts) (communityId : Nat) : Summarizer SummaryCounts :=
  Prog.orElse
    (do
      let generated ← summarizeCommunity sha256 communityId previous force
      perform (SummaryCall.count communityId)
      return if generated then { counts with summarized := counts.summarized + 1 }
        else { counts with skipped := counts.skipped + 1 })
    fun _ => return { counts with failed := counts.failed + 1 }

/-- The stored summaries, unless all are to be regenerated. -/
def previousSummaries (force : Bool) : Summarizer (Option (Text → Option CommunityRow)) :=
  if force then return none else some <$> summariesByHash

def summarizeAllCommunities (force : Bool) : Summarizer SummaryCounts := do
  let previous ← previousSummaries force
  perform SummaryCall.detectCommunities
  let activeIds ← perform SummaryCall.getActiveCommunityIds
  let counts ← (orderBy activeIds).foldlM (summarizeOne sha256 previous force) ⟨0, 0, 0⟩
  perform SummaryCall.deleteStaleCommunities
  return counts

end Summarizer

section Simulation
variable (sha256 : Bytes → Text) (answers : Answers) (cluster : Clustering)
  (previous : Option (Text → Option CommunityRow)) (force : Bool)

/-- The store after a method that may raise. -/
def storeAfter (s : GraphStore) {α : Type} : Except SummaryFailure (α × GraphStore) → GraphStore
  | .ok r => r.2
  | .error _ => s

/-- Storing a summary is one call. -/
theorem ends_upsert (w : SummaryWorld) (communityId : Nat) (summary : Text)
    (embedding : Option Bytes) (generated : Bool) :
    ∃ w', Ends (SummaryWorld.step cluster)
        ((Prog.perform (SummaryCall.upsertCommunity communityId summary
          ((w.store.entitiesForCommunity communityId).map EntityRow.id)
          (currentHash sha256 communityId w.store.toTables) embedding)).bind
            fun _ => .ret generated) w
        ((storeSummary sha256 communityId summary embedding generated w.store).map Prod.fst) w' ∧
      w'.store = storeAfter w.store
        (storeSummary sha256 communityId summary embedding generated w.store) := by
  unfold storeSummary
  cases hput : w.store.upsertCommunity communityId summary
      ((w.store.entitiesForCommunity communityId).map EntityRow.id)
      (currentHash sha256 communityId w.store.toTables) embedding with
  | ok s =>
      refine ⟨{ w with store := s }, ends_perform_bind .done (a := ()) ?_ (Ends.ret _ _), rfl⟩
      simp only [SummaryWorld.step, hput, SummaryWorld.commit]
  | error e =>
      refine ⟨w, Ends.bind_error _ (ends_perform .done ?_), rfl⟩
      simp only [SummaryWorld.step, hput, SummaryWorld.commit]

/-- What is found by hash is what the store method finds. -/
theorem ends_priorSummary (w : SummaryWorld) (newHash : Text) :
    Ends (SummaryWorld.step cluster) (Summarizer.priorSummary previous force newHash) w
      (.ok (if force then none else (previous.getD w.store.summariesByHash) newHash)) w := by
  cases force with
  | true => exact Ends.ret _ _
  | false =>
      cases previous with
      | some previous => exact Ends.ret _ _
      | none =>
          have hread : Ends (SummaryWorld.step cluster) Summarizer.summariesByHash w
              (.ok w.store.summariesByHash) w := ends_perform_bind .done rfl (Ends.ret _ _)
          exact Ends.bind hread (Ends.ret _ _)

/-- Where no call is cut short, `summarize_community` does to the store what the
function over the store says. -/
theorem ends_summarizeCommunity (communityId : Nat) (w : SummaryWorld) :
    ∃ w', Ends (SummaryWorld.step cluster)
        (Summarizer.summarizeCommunity sha256 communityId previous force) w
        ((summarizeCommunity sha256 answers communityId previous force w.store).map Prod.fst)
        w' ∧
      w'.store = storeAfter w.store
        (summarizeCommunity sha256 answers communityId previous force w.store) := by
  unfold Summarizer.summarizeCommunity summarizeCommunity
  by_cases hne : w.store.entitiesForCommunity communityId = []
  · rw [if_pos hne]
    refine ⟨w, ends_perform_bind .done rfl ?_, rfl⟩
    rw [if_pos hne]
    exact Ends.ret _ _
  · rw [if_neg hne]
    set newHash := currentHash sha256 communityId w.store.toTables with hhash
    have hreads : ∀ {prior r w'}, (if force then none
          else (previous.getD w.store.summariesByHash) newHash) = prior →
        Ends (SummaryWorld.step cluster) (Summarizer.reuseOrGenerate communityId
          ((w.store.entitiesForCommunity communityId).map EntityRow.id) newHash prior) w r w' →
        Ends (SummaryWorld.step cluster)
          (Summarizer.summarizeCommunity sha256 communityId previous force) w r w' := by
      intro prior r w' hprior hends
      have hread := ends_priorSummary cluster previous force w newHash
      rw [hprior] at hread
      apply ends_perform_bind .done rfl
      rw [if_neg hne]
      exact ends_perform_bind .done rfl (Ends.bind hread hends)
    cases hprior : if force then none
        else (previous.getD w.store.summariesByHash) newHash with
    | some prior =>
        simp only [hprior]
        by_cases hid : prior.id = communityId
        · refine ⟨w, hreads hprior ?_, ?_⟩
          · simp only [Summarizer.reuseOrGenerate, if_pos hid]
            exact Ends.ret _ _
          · simp only [if_pos hid, storeAfter]
        · obtain ⟨w', hends, hstore⟩ := ends_upsert sha256 cluster w communityId prior.summary
            prior.embedding false
          simp only [if_neg hid]
          refine ⟨w', hreads hprior ?_, hstore⟩
          simp only [Summarizer.reuseOrGenerate, if_neg hid]
          exact hends
    | none =>
        simp only [hprior]
        cases hanswer : answers communityId with
        | none =>
            refine ⟨{ w with generated := w.generated ++ [communityId] }, hreads hprior ?_, rfl⟩
            exact Ends.bind_error _ (ends_perform .fault rfl)
        | some answer =>
            obtain ⟨w', hends, hstore⟩ := ends_upsert sha256 cluster
              { w with generated := w.generated ++ [communityId] } communityId
              (strip answer.1) (some answer.2) true
            refine ⟨w', hreads hprior ?_, hstore⟩
            apply ends_perform_bind (.reply answer.1) rfl
            exact ends_perform_bind (.embedding answer.2) rfl hends

theorem ends_summarizeOne (acc : SummaryCounts × GraphStore) (communityId : Nat)
    (w : SummaryWorld) (hw : w.store = acc.2) :
    ∃ w', Ends (SummaryWorld.step cluster)
        (Summarizer.summarizeOne sha256 previous force acc.1 communityId) w
        (.ok (summarizeOne sha256 answers previous force acc communityId).1) w' ∧
      w'.store = (summarizeOne sha256 answers previous force acc communityId).2 := by
  obtain ⟨w', hends, hstore⟩ := ends_summarizeCommunity sha256 answers cluster previous force
    communityId w
  rw [hw] at hends hstore
  unfold Summarizer.summarizeOne summarizeOne
  cases hround : summarizeCommunity sha256 answers communityId previous force acc.2 with
  | error e =>
      rw [hround] at hends hstore
      exact ⟨w', Ends.orElse_error (Ends.bind_error _ hends) (Ends.ret _ _), hstore⟩
  | ok r =>
      rw [hround] at hends hstore
      refine ⟨{ w' with succeeded := w'.succeeded ++ [communityId] }, ?_, ?_⟩
      · apply Ends.orElse_ok
        apply Ends.bind hends
        apply ends_perform_bind .done rfl
        obtain ⟨_ | _, s⟩ := r <;> exact Ends.ret _ _
      · obtain ⟨_ | _, s⟩ := r <;> exact hstore

theorem ends_foldlM (ids : List Nat) (acc : SummaryCounts × GraphStore) (w : SummaryWorld)
    (hw : w.store = acc.2) :
    ∃ w', Ends (SummaryWorld.step cluster)
        (ids.foldlM (Summarizer.summarizeOne sha256 previous force) acc.1) w
        (.ok (ids.foldl (summarizeOne sha256 answers previous force) acc).1) w' ∧
      w'.store = (ids.foldl (summarizeOne sha256 answers previous force) acc).2 := by
  induction ids generalizing acc w with
  | nil => exact ⟨w, Ends.ret _ _, hw⟩
  | cons c ids ih =>
      obtain ⟨w₁, hround, hstore⟩ :=
        ends_summarizeOne sha256 answers cluster previous force acc c w hw
      obtain ⟨w₂, hrest, hend⟩ := ih _ w₁ hstore
      exact ⟨w₂, Ends.bind hround hrest, hend⟩

variable {sha256 answers cluster force} in
/-- Each run of the function over the store is a run of the process. -/
theorem ends_summarizeAllCommunities {s s' : GraphStore} {counts : SummaryCounts}
    (h : summarizeAllCommunities sha256 answers (cluster.partition s.toTables) force s =
      .ok (counts, s')) (generated succeeded : List Nat) :
    ∃ w', Ends (SummaryWorld.step cluster)
        (Summarizer.summarizeAllCommunities sha256 force) ⟨s, generated, succeeded⟩
        (.ok counts) w' ∧
      w'.store = s' := by
  unfold summarizeAllCommunities at h
  cases hdetect : s.detectCommunities (cluster.partition s.toTables) with
  | error e =>
      rw [hdetect] at h
      cases h
  | ok s₁ =>
      rw [hdetect] at h
      set previous := if force then none else some s.summariesByHash with hprevious
      obtain ⟨w', hloop, hstore⟩ := ends_foldlM sha256 answers cluster previous force
        (orderBy s₁.activeCommunityIds) (⟨0, 0, 0⟩, s₁) ⟨s₁, generated, succeeded⟩ rfl
      set loop := (orderBy s₁.activeCommunityIds).foldl
        (summarizeOne sha256 answers previous force) (⟨0, 0, 0⟩, s₁)
      obtain ⟨s₂, hdelete, -⟩ := deleteStaleCommunities_ok loop.2
      have hresult : (do
          let s ← loop.2.deleteStaleCommunities
          return (loop.1, s)) = Except.ok (counts, s') := h
      rw [hdelete] at hresult
      cases hresult
      have hread : Ends (SummaryWorld.step cluster) (Summarizer.previousSummaries force)
          ⟨s, generated, succeeded⟩ (.ok previous) ⟨s, generated, succeeded⟩ := by
        cases force with
        | true => exact Ends.ret _ _
        | false => exact Ends.bind (ends_perform_bind .done rfl (Ends.ret _ _)) (Ends.ret _ _)
      refine ⟨{ w' with store := s' }, Ends.bind hread ?_, rfl⟩
      have hdetected : SummaryWorld.step cluster ⟨s, generated, succeeded⟩
          SummaryCall.detectCommunities .done = (.ok (), ⟨s₁, generated, succeeded⟩) := by
        simp only [SummaryWorld.step, hdetect, SummaryWorld.commit]
      have hdeleted : SummaryWorld.step cluster w' SummaryCall.deleteStaleCommunities .done =
          (.ok (), { w' with store := s' }) := by
        simp only [SummaryWorld.step, hstore, hdelete, SummaryWorld.commit]
      apply ends_perform_bind .done hdetected
      · apply ends_perform_bind .done rfl
        apply Ends.bind hloop
        exact ends_perform_bind .done hdeleted (Ends.ret _ _)

end Simulation

end LocalGraphRag.Graph
