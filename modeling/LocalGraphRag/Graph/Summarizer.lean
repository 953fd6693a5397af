import LocalGraphRag.Graph.Communities

/-!
# The summarizer

`summarize_all_communities` detects communities anew, stores a summary for each
of them, and drops the summaries of ids that are no longer assigned. A summary
is reused from any id when the member hash is the same. A community that fails
keeps whatever row its id had.
-/

namespace LocalGraphRag.Graph

open Python Relational

/-- What the model and the embedder answer for a community, if neither fails: the
reply, and the bytes of its embedding. -/
abbrev Answers := Nat → Option (Text × Bytes)

/-- The exceptions of `summarize_community`. -/
inductive SummaryFailure where
  | call
  | store (e : StoreError)
  deriving DecidableEq

/-- The counts that `summarize_all_communities` returns. -/
structure SummaryCounts where
  summarized : Nat
  skipped : Nat
  failed : Nat
  deriving DecidableEq

namespace GraphStore

/-- `_summaries_by_hash`: of two rows with one hash the later one counts. -/
def summariesByHash (s : GraphStore) (memberHash : Text) : Option CommunityRow :=
  (s.communities.scan.filter fun c => c.memberHash = some memberHash ∧ memberHash ≠ []).getLast?

end GraphStore

/-- The current hash of a community. -/
def currentHash (sha256 : Bytes → Text) (communityId : Nat) (t : Tables) : Text :=
  computeMemberHash sha256 (t.entitiesForCommunity communityId)
    (t.relationshipsForCommunity communityId)

section Programs
variable (sha256 : Bytes → Text) (answers : Answers)

/-- Store a summary; a store error is one of the summarization. -/
def storeSummary (communityId : Nat) (summary : Text) (embedding : Option Bytes)
    (generated : Bool) (s : GraphStore) : Except SummaryFailure (Bool × GraphStore) :=
  match s.upsertCommunity communityId summary
      ((s.entitiesForCommunity communityId).map EntityRow.id)
      (currentHash sha256 communityId s.toTables) embedding with
  | .ok s' => .ok (generated, s')
  | .error e => .error (.store e)

/-- `summarize_community`: whether a summary was generated. -/
def summarizeCommunity (communityId : Nat)
    (previous : Option (Text → Option CommunityRow)) (force : Bool) (s : GraphStore) :
    Except SummaryFailure (Bool × GraphStore) :=
  if s.entitiesForCommunity communityId = [] then .ok (false, s)
  else
    let newHash := currentHash sha256 communityId s.toTables
    let prior := if force then none else (previous.getD s.summariesByHash) newHash
    match prior with
    | some prior =>
        if prior.id = communityId then .ok (false, s)
        else storeSummary sha256 communityId prior.summary prior.embedding false s
    | none =>
        match answers communityId with
        | none => .error .call
        | some (reply, embedding) =>
            storeSummary sha256 communityId (strip reply) (some embedding) true s

/-- One round of the loop: any exception is a failed community. -/
def summarizeOne (previous : Option (Text → Option CommunityRow)) (force : Bool)
    (acc : SummaryCounts × GraphStore) (communityId : Nat) : SummaryCounts × GraphStore :=
  match summarizeCommunity sha256 answers communityId previous force acc.2 with
  | .ok (true, s) => ({ acc.1 with summarized := acc.1.summarized + 1 }, s)
  | .ok (false, s) => ({ acc.1 with skipped := acc.1.skipped + 1 }, s)
  | .error _ => ({ acc.1 with failed := acc.1.failed + 1 }, acc.2)

/-- `summarize_all_communities`, for the partition that the clustering returns. -/
def summarizeAllCommunities (communities : List (List Text)) (force : Bool)
    (s : GraphStore) : Except StoreError (SummaryCounts × GraphStore) := do
  let previous := if force then none else some s.summariesByHash
  let detected ← s.detectCommunities communities
  let (counts, s) := (orderBy detected.activeCommunityIds).foldl
    (summarizeOne sha256 answers previous force) (⟨0, 0, 0⟩, detected)
  let s ← s.deleteStaleCommunities
  return (counts, s)

end Programs

section Detection

/-- The entities after `detect_communities`, and all other tables as before. -/
def detected (communities : List (List Text)) (t : Tables) : Tables :=
  t.clearCommunities.assignCommunities (GraphStore.communityAssignments communities)

theorem hasEntity_clearCommunities {t : Tables} {id : Text} :
    t.clearCommunities.HasEntity id ↔ t.HasEntity id :=
  Table.exists_key_updateWhere t.entities _ _ (fun _ => by rfl) id

theorem hasEntity_assignCommunities (assignments : List (Nat × Text)) {t : Tables}
    {id : Text} : (t.assignCommunities assignments).HasEntity id ↔ t.HasEntity id := by
  induction assignments generalizing t with
  | nil => rfl
  | cons a assignments ih =>
      apply (ih (t := t.assignCommunities [a])).trans
      exact Table.exists_key_updateWhere t.entities _ _ (fun _ => by rfl) id

theorem hasEntity_detected {communities : List (List Text)} {t : Tables} {id : Text} :
    (detected communities t).HasEntity id ↔ t.HasEntity id :=
  (hasEntity_assignCommunities _).trans hasEntity_clearCommunities

/-- Detection never fails: it leaves ids and references alone. -/
theorem detectCommunities_ok (communities : List (List Text)) (s : GraphStore) :
    ∃ s', s.detectCommunities communities = .ok s' ∧
      s'.toTables = detected communities s.toTables := by
  have hcleared : s.toTables.clearCommunities.ForeignKeys :=
    s.foreignKeys.of_updated (fun _ => hasEntity_clearCommunities.mpr) rfl rfl rfl rfl
  have hdetected : (detected communities s.toTables).ForeignKeys :=
    s.foreignKeys.of_updated (fun _ => hasEntity_detected.mpr) rfl rfl rfl rfl
  exact ⟨⟨_, hdetected⟩, GraphStore.transaction_cons_ok hcleared
    (GraphStore.transaction_cons_ok hdetected rfl), rfl⟩

theorem deleteStaleCommunities_ok (s : GraphStore) :
    ∃ s', s.deleteStaleCommunities = .ok s' ∧
      s'.toTables = s.toTables.deleteStaleCommunities := by
  have hkeys : s.toTables.deleteStaleCommunities.ForeignKeys :=
    s.foreignKeys.of_updated (fun _ h => h) rfl rfl rfl rfl
  exact ⟨⟨_, hkeys⟩, GraphStore.transaction_cons_ok hkeys rfl, rfl⟩

end Detection

end LocalGraphRag.Graph
