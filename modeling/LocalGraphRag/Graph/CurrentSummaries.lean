import LocalGraphRag.Graph.Summarizer

/-!
# What a summarizer run leaves behind

A community whose summarization fails keeps the row stored under its id, and the
last statement of the run drops rows by their id alone. So the stored summaries
are current after a run exactly when every failed community either had no row or
had a current one.

## Implementation notes

`Summarized` is the invariant of the loop. It compares the store with the tables
right after the detection: entities and relationships stay as they are, a row is
either one of then or current, and rows of other or failed communities stay.
-/

namespace LocalGraphRag.Graph

open Python Relational

/-- Every stored summary is of a community that exists, at its current hash. -/
def CurrentSummaries (sha256 : Bytes → Text) (t : Tables) : Prop :=
  ∀ row ∈ t.communities, row.id ∈ t.activeCommunityIds ∧
    row.memberHash = some (currentHash sha256 row.id t)

instance (sha256 : Bytes → Text) (t : Tables) : Decidable (CurrentSummaries sha256 t) :=
  inferInstanceAs (Decidable (∀ row ∈ t.communities, _))

theorem Tables.SameEntities.currentHash {t u : Tables} (h : Tables.SameEntities t u)
    (sha256 : Bytes → Text) (communityId : Nat) :
    currentHash sha256 communityId t = currentHash sha256 communityId u := by
  rw [Graph.currentHash, Graph.currentHash, h.entitiesForCommunity,
    h.relationshipsForCommunity]

/-- A summary found by hash is of a row with that hash. -/
theorem GraphStore.of_summariesByHash {s : GraphStore} {hash : Text} {prior : CommunityRow}
    (h : s.summariesByHash hash = some prior) :
    prior ∈ s.communities ∧ prior.memberHash = some hash := by
  have hmem := List.mem_of_getLast? h
  simp only [List.mem_filter, Table.mem_scan, decide_eq_true_eq] at hmem
  exact ⟨hmem.1, hmem.2.1⟩

section Run
variable {sha256 : Bytes → Text} {answers : Answers} {previous : Text → Option CommunityRow}
  {force : Bool}

/-- The summarization of a community fails: no call to the models returns, or
SQLite cannot bind the summary. -/
def SummaryFails (sha256 : Bytes → Text) (answers : Answers)
    (previous : Text → Option CommunityRow) (force : Bool) (t : Tables)
    (communityId : Nat) : Prop :=
  match if force then none else previous (currentHash sha256 communityId t) with
  | some prior => prior.id ≠ communityId ∧ ¬ Encodable prior.summary
  | none => ∀ answer ∈ answers communityId, ¬ Encodable (strip answer.1)

section Store
variable (communityId : Nat) {summary : Text} (embedding : Option Bytes) (generated : Bool)
  (s : GraphStore)

theorem storeSummary_ok (hsha : ∀ b, Encodable (sha256 b)) (hsummary : Encodable summary) :
    ∃ s' row, storeSummary sha256 communityId summary embedding generated s =
        .ok (generated, s') ∧
      s'.toTables = s.toTables.putCommunity row ∧ row.id = communityId ∧
      row.memberHash = some (currentHash sha256 communityId s.toTables) := by
  let row : CommunityRow := ⟨communityId, summary,
    (s.entitiesForCommunity communityId).map EntityRow.id,
    some (currentHash sha256 communityId s.toTables), embedding⟩
  have hkeys : (s.toTables.putCommunity row).ForeignKeys :=
    s.foreignKeys.of_updated (fun _ h => h) rfl rfl rfl rfl
  have hput : s.upsertCommunity communityId summary row.entityIds
      (currentHash sha256 communityId s.toTables) embedding =
        .ok ⟨s.toTables.putCommunity row, hkeys⟩ := by
    refine GraphStore.bindText_bind_eq_ok.mpr ⟨?_, GraphStore.transaction_cons_ok hkeys rfl⟩
    simpa using ⟨hsummary, hsha _⟩
  exact ⟨_, row, by rw [storeSummary, hput], rfl, rfl, rfl⟩

theorem storeSummary_error (hsummary : ¬ Encodable summary) :
    ∃ e, storeSummary sha256 communityId summary embedding generated s = .error e := by
  unfold storeSummary
  cases hput : s.upsertCommunity communityId summary
      ((s.entitiesForCommunity communityId).map EntityRow.id)
      (currentHash sha256 communityId s.toTables) embedding with
  | error e => exact ⟨_, rfl⟩
  | ok s' => exact absurd ((GraphStore.bindText_bind_eq_ok.mp hput).1 summary (by simp)) hsummary

end Store

section Round
variable {s : GraphStore} {communityId : Nat}

/-- With a summary of the same hash no model is asked. -/
theorem summarizeCommunity_reuses {prior : CommunityRow}
    (hne : s.entitiesForCommunity communityId ≠ [])
    (hprior : (if force then none else
      previous (currentHash sha256 communityId s.toTables)) = some prior) :
    summarizeCommunity sha256 answers communityId
        (if force then none else some previous) force s =
      if prior.id = communityId then .ok (false, s)
      else storeSummary sha256 communityId prior.summary prior.embedding false s := by
  cases force with
  | true => cases hprior
  | false =>
      simp only [Bool.false_eq_true, if_false] at hprior
      simp only [summarizeCommunity, if_neg hne, Bool.false_eq_true, if_false,
        Option.getD_some, hprior]

theorem summarizeCommunity_asks (hne : s.entitiesForCommunity communityId ≠ [])
    (hprior : (if force then none else
      previous (currentHash sha256 communityId s.toTables)) = none) :
    summarizeCommunity sha256 answers communityId
        (if force then none else some previous) force s =
      (answers communityId).elim (.error .call) fun answer =>
        storeSummary sha256 communityId (strip answer.1) (some answer.2) true s := by
  cases force with
  | true =>
      simp only [summarizeCommunity, if_neg hne, if_true]
      cases answers communityId <;> rfl
  | false =>
      simp only [Bool.false_eq_true, if_false] at hprior
      simp only [summarizeCommunity, if_neg hne, Bool.false_eq_true, if_false,
        Option.getD_some, hprior]
      cases answers communityId <;> rfl

/-- A failing community raises. -/
theorem summarizeCommunity_error (hne : s.entitiesForCommunity communityId ≠ [])
    (hfails : SummaryFails sha256 answers previous force s.toTables communityId) :
    ∃ e, summarizeCommunity sha256 answers communityId
      (if force then none else some previous) force s = .error e := by
  unfold SummaryFails at hfails
  split at hfails
  · rename_i prior hprior
    rw [summarizeCommunity_reuses hne hprior, if_neg hfails.1]
    exact storeSummary_error _ _ _ _ hfails.2
  · rename_i hprior
    rw [summarizeCommunity_asks hne hprior]
    cases hanswer : answers communityId with
    | none => exact ⟨_, rfl⟩
    | some answer => exact storeSummary_error _ _ _ _ (hfails answer hanswer)

/-- Any other community has its own row already, or stores one at its current hash. -/
theorem summarizeCommunity_ok (hsha : ∀ b, Encodable (sha256 b))
    (hne : s.entitiesForCommunity communityId ≠ [])
    (hfails : ¬ SummaryFails sha256 answers previous force s.toTables communityId) :
    ∃ generated s', summarizeCommunity sha256 answers communityId
        (if force then none else some previous) force s = .ok (generated, s') ∧
      ((s' = s ∧ ∃ prior, previous (currentHash sha256 communityId s.toTables) = some prior ∧
          prior.id = communityId) ∨
        ∃ row, s'.toTables = s.toTables.putCommunity row ∧ row.id = communityId ∧
          row.memberHash = some (currentHash sha256 communityId s.toTables)) := by
  unfold SummaryFails at hfails
  split at hfails
  · rename_i prior hprior
    rw [summarizeCommunity_reuses hne hprior]
    split_ifs with hid
    · refine ⟨_, _, rfl, Or.inl ⟨rfl, prior, ?_, hid⟩⟩
      cases force with
      | true => cases hprior
      | false => exact hprior
    · have hsummary : Encodable prior.summary := by
        by_contra hn
        exact hfails ⟨hid, hn⟩
      obtain ⟨s', row, hstore, hrow⟩ := storeSummary_ok communityId prior.embedding false s
        hsha hsummary
      exact ⟨_, s', hstore, Or.inr ⟨row, hrow⟩⟩
  · rename_i hprior
    rw [summarizeCommunity_asks hne hprior]
    push Not at hfails
    obtain ⟨answer, hanswer, hsummary⟩ := hfails
    obtain ⟨s', row, hstore, hrow⟩ := storeSummary_ok communityId (some answer.2) true s
      hsha hsummary
    rw [Option.mem_def.mp hanswer]
    exact ⟨_, s', hstore, Or.inr ⟨row, hrow⟩⟩

end Round

section Loop

/-- The stored rows when the communities in `processed` had their round, in terms of
the tables `t` after the detection. -/
structure Summarized (sha256 : Bytes → Text) (fails : Nat → Prop) (t : Tables)
    (processed : List Nat) (u : Tables) : Prop where
  same : Tables.SameEntities u t
  current : ∀ row ∈ u.communities, row.memberHash = some (currentHash sha256 row.id t) ∨
    (row ∈ t.communities ∧ (row.id ∈ processed → fails row.id))
  kept : ∀ row ∈ t.communities, (row.id ∈ processed → fails row.id) → row ∈ u.communities

variable {t : Tables} {fails : Nat → Prop} {processed : List Nat} {u : Tables}
  {communityId : Nat}

/-- A round that leaves the rows alone, where the community fails or is current. -/
theorem Summarized.of_unchanged (h : Summarized sha256 fails t processed u)
    (hround : fails communityId ∨ ∃ row ∈ t.communities, row.id = communityId ∧
      row.memberHash = some (currentHash sha256 communityId t)) :
    Summarized sha256 fails t (communityId :: processed) u := by
  refine ⟨h.same, fun row hrow => ?_, fun row hrow hkept =>
    h.kept row hrow fun hp => hkept (List.mem_cons_of_mem _ hp)⟩
  obtain hcurrent | ⟨hold, himp⟩ := h.current row hrow
  · exact Or.inl hcurrent
  · by_cases hid : row.id = communityId
    · obtain hfails | ⟨row', hrow', hid', hhash⟩ := hround
      · exact Or.inr ⟨hold, fun _ => hid ▸ hfails⟩
      · left
        rw [t.communities.eq_of_key hold hrow' (hid.trans hid'.symm), hid', hhash]
    · refine Or.inr ⟨hold, fun hp => himp ?_⟩
      exact (List.mem_cons.mp hp).resolve_left hid

/-- A round that stores a current row for a community that does not fail. -/
theorem Summarized.of_put {row : CommunityRow} (h : Summarized sha256 fails t processed u)
    (hfails : ¬ fails row.id) (hhash : row.memberHash = some (currentHash sha256 row.id t)) :
    Summarized sha256 fails t (row.id :: processed) (u.putCommunity row) := by
  refine ⟨⟨h.same.entities, h.same.relationships⟩, fun x hx => ?_, fun x hx hkept => ?_⟩
  · obtain rfl | ⟨hx, hid⟩ := (Table.mem_insertOrReplace ..).mp hx
    · exact Or.inl hhash
    · refine (h.current x hx).imp_right fun ⟨hold, himp⟩ => ⟨hold, fun hp => himp ?_⟩
      exact (List.mem_cons.mp hp).resolve_left hid
  · refine (Table.mem_insertOrReplace ..).mpr (Or.inr ⟨h.kept x hx fun hp =>
      hkept (List.mem_cons_of_mem _ hp), fun hid => hfails ?_⟩)
    exact hid ▸ hkept (List.mem_cons.mpr (Or.inl hid))

/-- With all active communities processed and stale ids dropped, what is outdated are
the rows of before under the ids of failing communities. -/
theorem Summarized.currentSummaries_iff (h : Summarized sha256 fails t processed u)
    (hprocessed : ∀ c, c ∈ processed ↔ c ∈ t.activeCommunityIds) :
    CurrentSummaries sha256 u.deleteStaleCommunities ↔
      ∀ c ∈ t.activeCommunityIds, fails c → ∀ row ∈ t.communities, row.id = c →
        row.memberHash = some (currentHash sha256 c t) := by
  have hsame : Tables.SameEntities u.deleteStaleCommunities t :=
    ⟨h.same.entities, h.same.relationships⟩
  have hmem : ∀ row, row ∈ u.deleteStaleCommunities.communities ↔
      row ∈ u.communities ∧ row.id ∈ t.activeCommunityIds := by
    intro row
    rw [← h.same.activeCommunityIds]
    exact (Table.mem_deleteWhere ..).trans (and_congr_right fun _ => not_not)
  unfold CurrentSummaries
  simp only [hmem, hsame.activeCommunityIds, hsame.currentHash]
  constructor
  · rintro hcurrent c hc hfails row hrow rfl
    exact (hcurrent row ⟨h.kept row hrow fun _ => hfails, hc⟩).2
  · rintro hold row ⟨hrow, hactive⟩
    refine ⟨hactive, ?_⟩
    obtain hhash | ⟨hbefore, himp⟩ := h.current row hrow
    · exact hhash
    · exact hold _ hactive (himp ((hprocessed _).mpr hactive)) row hbefore rfl

-- What is found by hash was stored before the loop.
variable (hsha : ∀ b, Encodable (sha256 b))
  (hprevious : ∀ hash prior, previous hash = some prior →
    prior ∈ t.communities ∧ prior.memberHash = some hash)

include hsha hprevious

theorem Summarized.summarizeOne {counts : SummaryCounts} {s : GraphStore}
    (h : Summarized sha256 (SummaryFails sha256 answers previous force t) t processed
      s.toTables) (hactive : communityId ∈ t.activeCommunityIds) :
    Summarized sha256 (SummaryFails sha256 answers previous force t) t
      (communityId :: processed)
      (summarizeOne sha256 answers (if force then none else some previous) force
        (counts, s) communityId).2.toTables := by
  have hhash := h.same.currentHash sha256 communityId
  have hfailsIff : SummaryFails sha256 answers previous force s.toTables communityId ↔
      SummaryFails sha256 answers previous force t communityId := by
    rw [SummaryFails, SummaryFails, hhash]
  have hne : s.entitiesForCommunity communityId ≠ [] := by
    rwa [← Tables.mem_activeCommunityIds, h.same.activeCommunityIds]
  by_cases hfails : SummaryFails sha256 answers previous force t communityId
  · obtain ⟨e, he⟩ := summarizeCommunity_error hne (hfailsIff.mpr hfails)
    rw [Graph.summarizeOne, he]
    exact h.of_unchanged (Or.inl hfails)
  · obtain ⟨generated, s', hok, hround⟩ := summarizeCommunity_ok hsha hne
      (hfailsIff.not.mpr hfails)
    have hstore : (Graph.summarizeOne sha256 answers (if force then none else some previous)
        force (counts, s) communityId).2 = s' := by
      rw [Graph.summarizeOne, hok]
      cases generated <;> rfl
    rw [hstore]
    rw [hhash] at hround
    obtain ⟨rfl, prior, hprior, hid⟩ | ⟨row, hput, rfl, hrow⟩ := hround
    · obtain ⟨hmem, hprior⟩ := hprevious _ _ hprior
      exact h.of_unchanged (Or.inr ⟨prior, hmem, hid, hprior⟩)
    · rw [hput]
      exact h.of_put hfails hrow

/-- The invariant holds after any number of rounds. -/
theorem Summarized.foldl {ids : List Nat} (hids : ∀ c ∈ ids, c ∈ t.activeCommunityIds)
    (acc : SummaryCounts × GraphStore)
    (h : Summarized sha256 (SummaryFails sha256 answers previous force t) t processed
      acc.2.toTables) :
    Summarized sha256 (SummaryFails sha256 answers previous force t) t
      (ids.reverse ++ processed)
      (ids.foldl (Graph.summarizeOne sha256 answers
        (if force then none else some previous) force) acc).2.toTables := by
  induction ids generalizing acc processed with
  | nil => exact h
  | cons c ids ih =>
      rw [List.reverse_cons, List.append_assoc]
      exact ih (fun c' hc' => hids c' (List.mem_cons_of_mem _ hc'))
        _ (h.summarizeOne hsha hprevious (hids c (by simp)))

end Loop

/-- A summarizer run returns, and leaves only current summaries exactly when each
failing community that exists has no outdated row under its id. -/
theorem summaries_current_iff (hsha : ∀ b, Encodable (sha256 b)) (answers : Answers)
    (communities : List (List Text)) (force : Bool) (s : GraphStore) :
    ∃ counts s', summarizeAllCommunities sha256 answers communities force s =
        .ok (counts, s') ∧
      (CurrentSummaries sha256 s'.toTables ↔
        ∀ c ∈ (detected communities s.toTables).activeCommunityIds,
          SummaryFails sha256 answers s.summariesByHash force
            (detected communities s.toTables) c →
          ∀ row ∈ s.communities, row.id = c →
            row.memberHash =
              some (currentHash sha256 c (detected communities s.toTables))) := by
  obtain ⟨s₁, hdetect, ht⟩ := detectCommunities_ok communities s
  have hcommunities : s₁.communities = s.communities := by
    rw [ht]
    rfl
  rw [← ht]
  set loop := (orderBy s₁.activeCommunityIds).foldl (summarizeOne sha256 answers
    (if force then none else some s.summariesByHash) force) (⟨0, 0, 0⟩, s₁) with hloop
  obtain ⟨s₂, hdelete, hstale⟩ := deleteStaleCommunities_ok loop.2
  refine ⟨loop.1, s₂, ?_, ?_⟩
  · simp only [summarizeAllCommunities, hdetect]
    change (do
      let s ← loop.2.deleteStaleCommunities
      return (loop.1, s)) = _
    rw [hdelete]
    rfl
  · have hstart : Summarized sha256 (SummaryFails sha256 answers s.summariesByHash force
        s₁.toTables) s₁.toTables [] s₁.toTables :=
      ⟨⟨rfl, rfl⟩, fun row hrow => Or.inr ⟨hrow, by simp⟩, fun row hrow _ => hrow⟩
    have hend := hstart.foldl hsha
      (fun hash prior hprior => hcommunities ▸ GraphStore.of_summariesByHash hprior)
      (fun c (hc : c ∈ orderBy s₁.activeCommunityIds) => mem_orderBy.mp hc) (⟨0, 0, 0⟩, s₁)
    rw [← hloop] at hend
    have hiff := hend.currentSummaries_iff fun c => by simp
    rwa [← hstale, hcommunities] at hiff

end Run

section Sample

/-- Two entities of one document and a relationship between them. -/
def addPair (first second doc : Text) (s : GraphStore) : Except StoreError GraphStore := do
  let (_, s) ← s.upsertEntities [⟨first, none, []⟩, ⟨second, none, []⟩] doc
  s.upsertRelationships [(first, second, text "uses", doc)]

/-- A run in which at most this community fails, with texts as their own digests. -/
def summarizeSample (communities : List (List Text)) (failing : Option Nat)
    (s : GraphStore) : Except StoreError (SummaryCounts × GraphStore) :=
  summarizeAllCommunities latin1
    (fun c => if some c = failing then none else some (text "summary", [])) communities false s

def oldPair : Except StoreError GraphStore :=
  addPair (text "c") (text "d") (text "/docs/old") GraphStore.empty

/-- `c` and `d` are summarized as community 0, then `a` and `b` are indexed. -/
def bothPairs : Except StoreError GraphStore := do
  let (_, s) ← summarizeSample [[text "c", text "d"]] none (← oldPair)
  addPair (text "a") (text "b") (text "/docs/new") s

theorem exists_ok_of_any {ε α : Type} {x : Except ε α} {p : α → Bool}
    (h : x.toOption.any p = true) : ∃ a, x = .ok a ∧ p a = true := by
  cases x with
  | error e => simp [Except.toOption] at h
  | ok a => exact ⟨a, rfl, h⟩

/-- `c` and `d` keep their number and their summary, and `a` and `b` become community 1, which
fails: it has no summary yet, so none is outdated. -/
theorem summaries_current_iff_bothPairs : ∃ s counts s', bothPairs = .ok s ∧
    summarizeSample [[text "c", text "d"], [text "a", text "b"]] (some 1) s = .ok (counts, s') ∧
    s.communities.scan.map CommunityRow.id = [0] ∧ CurrentSummaries latin1 s'.toTables := by
  have hold : bothPairs.toOption.any (fun s =>
      s.communities.scan.map (fun row => (row.id, row.memberHash)) =
        [(0, some (currentHash latin1 0
          (detected [[text "c", text "d"], [text "a", text "b"]] s.toTables)))]) = true := by
    decide +kernel
  obtain ⟨s, hs, hrows⟩ := exists_ok_of_any hold
  rw [decide_eq_true_eq] at hrows
  have hids := congrArg (List.map Prod.fst) hrows
  rw [List.map_map] at hids
  obtain ⟨counts, s', hrun, hiff⟩ := summaries_current_iff latin1_encodable
    (fun c => if some c = some 1 then none else some (text "summary", []))
    [[text "c", text "d"], [text "a", text "b"]] false s
  refine ⟨s, counts, s', hs, hrun, hids, hiff.mpr ?_⟩
  rintro c - - row hrow rfl
  have hmem : (row.id, row.memberHash) ∈
      s.communities.scan.map fun row => (row.id, row.memberHash) :=
    List.mem_map_of_mem ((Table.mem_scan ..).mpr hrow)
  rw [hrows, List.mem_singleton, Prod.mk.injEq] at hmem
  rw [hmem.1]
  exact hmem.2

/-- Community 0 is new and fails, so it keeps the summary of what is now community 1,
which community 1 reuses: the same outdated summary is stored twice. -/
theorem renumbered_failure_keeps_outdated : ∃ s counts s', bothPairs = .ok s ∧
    summarizeSample [[text "a", text "b"], [text "c", text "d"]] (some 0) s =
      .ok (counts, s') ∧
    s'.toTables.activeCommunityIds = {0, 1} ∧
    s'.communities.scan.map (fun c => (c.id, c.summary, c.memberHash)) =
      [(0, text "summary", some (currentHash latin1 1 s'.toTables)),
        (1, text "summary", some (currentHash latin1 1 s'.toTables))] ∧
    ¬ CurrentSummaries latin1 s'.toTables := by
  have hrun : bothPairs.toOption.any (fun s =>
      (summarizeSample [[text "a", text "b"], [text "c", text "d"]] (some 0) s).toOption.any
        fun r => r.2.toTables.activeCommunityIds = {0, 1} ∧
          r.2.communities.scan.map (fun c => (c.id, c.summary, c.memberHash)) =
            [(0, text "summary", some (currentHash latin1 1 r.2.toTables)),
              (1, text "summary", some (currentHash latin1 1 r.2.toTables))] ∧
          ¬ CurrentSummaries latin1 r.2.toTables) = true := by decide +kernel
  obtain ⟨s, hs, hrun⟩ := exists_ok_of_any hrun
  obtain ⟨r, hr, hresult⟩ := exists_ok_of_any hrun
  rw [decide_eq_true_eq] at hresult
  exact ⟨s, r.1, r.2, hs, hr, hresult⟩

end Sample

end LocalGraphRag.Graph
