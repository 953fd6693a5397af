import LocalGraphRag.Graph.Commits
import Mathlib.Algebra.BigOperators.Group.Finset.Basic

/-!
# Communities and their summaries

The store methods that the summarizer calls, and the member hash. A partition
comes from the clustering of the graph, and is any list of groups of entity ids.
-/

namespace LocalGraphRag.Graph

open Python Relational

/-- A relationship within a community, over all documents that state it. -/
structure CommunityEdge where
  sourceId : Text
  targetId : Text
  label : Text
  weight : ℚ
  deriving DecidableEq

namespace Tables

/-- `UPDATE entities SET community = NULL`. -/
def clearCommunities (t : Tables) : Tables :=
  { t with
    entities := t.entities.updateWhere (fun _ => True)
      (fun e => { e with community := none }) (fun _ => rfl) }

/-- `UPDATE entities SET community = ? WHERE id = ?`, for each assignment. -/
def assignCommunities (assignments : List (Nat × Text)) (t : Tables) : Tables :=
  { t with
    entities := assignments.foldl (fun entities a =>
      entities.updateWhere (fun e => e.id = a.2)
        (fun e => { e with community := some a.1 }) (fun _ => rfl)) t.entities }

def putCommunity (row : CommunityRow) (t : Tables) : Tables :=
  { t with communities := t.communities.insertOrReplace row }

/-- `_ACTIVE_COMMUNITY_IDS_SQL`. -/
def activeCommunityIds (t : Tables) : Finset Nat :=
  t.entities.rows.biUnion fun e => e.community.toFinset

def deleteStaleCommunities (t : Tables) : Tables :=
  { t with
    communities := t.communities.deleteWhere fun c => c.id ∉ t.activeCommunityIds }

/-- Entity rows of a community. -/
def entitiesForCommunity (communityId : Nat) (t : Tables) : List EntityRow :=
  t.entities.scan.filter fun e => e.community = some communityId

/-- The relationship rows with both ends in a community. -/
def communityRelationships (communityId : Nat) (t : Tables) : Finset RelationshipRow :=
  t.relationships.select fun r =>
    (∃ e ∈ t.entities, e.id = r.sourceId ∧ e.community = some communityId) ∧
      ∃ e ∈ t.entities, e.id = r.targetId ∧ e.community = some communityId

/-- One row per source, target and label, with the weights summed. -/
def relationshipsForCommunity (communityId : Nat) (t : Tables) : List CommunityEdge :=
  let rows := t.communityRelationships communityId
  (orderBy (rows.image fun r => toLex (r.sourceId, toLex (r.targetId, r.label)))).map fun k =>
    let edge := ((ofLex k).1, ofLex (ofLex k).2)
    ⟨edge.1, edge.2.1, edge.2.2,
      ∑ r ∈ rows.filter fun r => (r.sourceId, r.targetId, r.label) = edge, r.weight⟩

/-- Where entities and relationships are the same, so are the communities. -/
structure SameEntities (t u : Tables) : Prop where
  entities : t.entities = u.entities
  relationships : t.relationships = u.relationships

section SameEntities
variable {t u : Tables}

theorem SameEntities.activeCommunityIds (h : SameEntities t u) :
    t.activeCommunityIds = u.activeCommunityIds := by
  rw [Tables.activeCommunityIds, Tables.activeCommunityIds, h.entities]

theorem SameEntities.entitiesForCommunity (h : SameEntities t u) (communityId : Nat) :
    t.entitiesForCommunity communityId = u.entitiesForCommunity communityId := by
  rw [Tables.entitiesForCommunity, Tables.entitiesForCommunity, h.entities]

theorem SameEntities.relationshipsForCommunity (h : SameEntities t u) (communityId : Nat) :
    t.relationshipsForCommunity communityId = u.relationshipsForCommunity communityId := by
  simp only [Tables.relationshipsForCommunity, Tables.communityRelationships, h.entities,
    h.relationships]

theorem mem_activeCommunityIds {communityId : Nat} : communityId ∈ t.activeCommunityIds ↔
    t.entitiesForCommunity communityId ≠ [] := by
  simp [Tables.activeCommunityIds, Tables.entitiesForCommunity, List.filter_eq_nil_iff]

end SameEntities

/-- The entities keep their ids, so the foreign keys hold. -/
theorem ForeignKeys.of_updated {t u : Tables} (h : t.ForeignKeys)
    (hids : ∀ id, t.HasEntity id → u.HasEntity id) (hrel : u.relationships = t.relationships)
    (hchunks : u.chunks = t.chunks) (hlinks : u.chunkEntities = t.chunkEntities)
    (hmentions : u.entityMentions = t.entityMentions) : u.ForeignKeys :=
  h.of_entities hrel hchunks hlinks hids fun m hm => hids _ (h.mention m (hmentions ▸ hm))

end Tables

namespace GraphStore

/-- The `(community id, entity id)` pairs of a partition. -/
def communityAssignments (communities : List (List Text)) : List (Nat × Text) :=
  communities.zipIdx.flatMap fun c => c.1.map fun entityId => (c.2, entityId)

/-- `detect_communities` for the partition that the clustering returned. Its
entity ids were read from the store, so they can be bound. -/
def detectCommunities (communities : List (List Text)) (s : GraphStore) :
    Except StoreError GraphStore :=
  transaction [Tables.clearCommunities,
    Tables.assignCommunities (communityAssignments communities)] s

def upsertCommunity (communityId : Nat) (summary : Text) (entityIds : List Text)
    (memberHash : Text) (embedding : Option Bytes) (s : GraphStore) :
    Except StoreError GraphStore := do
  bindText [summary, memberHash]
  transaction
    [Tables.putCommunity ⟨communityId, summary, entityIds, some memberHash, embedding⟩] s

def deleteStaleCommunities (s : GraphStore) : Except StoreError GraphStore :=
  transaction [Tables.deleteStaleCommunities] s

end GraphStore

/-- `sorted` of the lines of some rows. -/
def sortedLines {α : Type} (line : α → Text) (rows : List α) : List Text :=
  (rows.map line).insertionSort (· ≤ ·)

/-- SHA-256 over the members of a community and their relationships. -/
def computeMemberHash (sha256 : Bytes → Text) (entities : List EntityRow)
    (relationships : List CommunityEdge) : Text :=
  let separator : Text := [0x1f]
  let entityLines := sortedLines (fun e : EntityRow =>
    join separator [e.id, e.type.getD [], e.description.getD []]) entities
  let relationshipLines := sortedLines (fun r : CommunityEdge =>
    join separator [r.sourceId, r.targetId, r.label]) relationships
  sha256 (utf8 (join [0x0a] (entityLines ++ [text "---"] ++ relationshipLines)))

end LocalGraphRag.Graph
