import LocalGraphRag.Graph.Commits
import LocalGraphRag.Graph.Neighborhood

/-!
# The expansion is a bounded breadth-first search

The hops are rounds of a search outward from the seeds, over the graph whose edges are the
relationships in either direction. The relationships are returned for what was selected.
-/

namespace LocalGraphRag.Graph

open Python Relational Sequences Networks

namespace Tables

/-- The undirected graph of the relationships. -/
def graph (t : Tables) : SimpleGraph Text :=
  SimpleGraph.fromRel fun a b => ∃ r ∈ t.relationships, r.sourceId = a ∧ r.targetId = b

variable {t : Tables} {a b : Text}

theorem graph_adj : t.graph.Adj a b ↔ a ≠ b ∧ b ∈ t.neighbors a := by
  simp only [graph, SimpleGraph.fromRel_adj, neighbors, Finset.mem_union, Finset.mem_image,
    Table.mem_select]
  constructor
  · intro ⟨hne, h⟩
    obtain ⟨r, hr, rfl, rfl⟩ | ⟨r, hr, rfl, rfl⟩ := h
    · exact ⟨hne, Or.inl ⟨r, ⟨hr, rfl⟩, rfl⟩⟩
    · exact ⟨hne, Or.inr ⟨r, ⟨hr, rfl⟩, rfl⟩⟩
  · intro ⟨hne, h⟩
    obtain ⟨r, ⟨hr, rfl⟩, rfl⟩ | ⟨r, ⟨hr, rfl⟩, rfl⟩ := h
    · exact ⟨hne, Or.inl ⟨r, hr, rfl, rfl⟩⟩
    · exact ⟨hne, Or.inr ⟨r, hr, rfl, rfl⟩⟩

/-- The ends of a relationship are entities. -/
theorem ForeignKeys.hasEntity_of_adj (h : t.ForeignKeys) (hadj : t.graph.Adj a b) :
    t.HasEntity b := by
  obtain ⟨-, ⟨r, hr, -, rfl⟩ | ⟨r, hr, rfl, -⟩⟩ := (SimpleGraph.fromRel_adj _ _ _).mp hadj
  · exact h.target r hr
  · exact h.source r hr

section Selection
variable {maxEntities hops k : ℕ} {selected frontier : List Text} {S : Set Text}

/-- A fair hop is one round of the search. -/
theorem FairHop.explored {hop : List Text × Finset Text}
    (hfair : FairHop t frontier selected.toFinset (maxEntities - selected.length) hop)
    (h : Explored t.graph S maxEntities k selected) (hopen : selected.length < maxEntities)
    (hfrontier : ∀ id, id ∈ frontier ↔ id ∈ selected ∧ distFrom t.graph S id = k) :
    Explored t.graph S maxEntities (k + 1) (selected ++ hop.1) ∧
      ∀ id, id ∈ hop.1 ↔ id ∈ selected ++ hop.1 ∧ distFrom t.graph S id = (k + 1 : ℕ) := by
  have hnew : ∀ id ∈ hop.1, id ∉ selected :=
    fun id hid hmem => hfair.unchosen id hid (List.mem_toFinset.mpr hmem)
  apply h.round hopen hfrontier hfair.nodup hnew
  · intro id hid
    obtain ⟨p, hp, hneighbor⟩ := hfair.neighbor id hid
    have hselected : p ∈ selected := ((hfrontier p).mp hp).1
    have hne : p ≠ id := fun heq => hnew id hid (heq ▸ hselected)
    exact ⟨p, hp, graph_adj.mpr ⟨hne, hneighbor⟩⟩
  · exact hfair.within_budget
  · intro hless p hp id hadj hid
    exact hfair.complete hless p hp id (graph_adj.mp hadj).2 (mt List.mem_toFinset.mp hid)

/-- The hops stop with a search of all of them, or with one of fewer hops that has filled
the budget. -/
theorem explored_expand (h : Explored t.graph S maxEntities k selected) (hnodup : frontier.Nodup)
    (hfrontier : ∀ id, id ∈ frontier ↔ id ∈ selected ∧ distFrom t.graph S id = k) :
    selected <+: t.expand maxEntities hops selected frontier selected.toFinset ∧
    ∃ j, k ≤ j ∧ j ≤ k + hops ∧ Explored t.graph S maxEntities j
        (t.expand maxEntities hops selected frontier selected.toFinset) ∧
      ((t.expand maxEntities hops selected frontier selected.toFinset).length < maxEntities →
        j = k + hops) := by
  induction hops generalizing k selected frontier with
  | zero => exact ⟨List.prefix_rfl, k, le_rfl, le_rfl, h, fun _ => rfl⟩
  | succ hops ih =>
      rw [expand]
      split_ifs with hstop
      · refine ⟨List.prefix_rfl, ?_⟩
        by_cases hopen : selected.length < maxEntities
        · have hnil : frontier = [] := hstop.resolve_right (not_le.mpr hopen)
          have hlast : ∀ id ∈ selected, distFrom t.graph S id ≠ k := by
            intro id hid hdist
            have hmem := (hfrontier id).mpr ⟨hid, hdist⟩
            rw [hnil] at hmem
            exact List.not_mem_nil hmem
          exact ⟨k + (hops + 1), by omega, le_rfl, h.stay hopen hlast _, fun _ => rfl⟩
        · exact ⟨k, le_rfl, by omega, h, fun hroom => absurd hroom hopen⟩
      · rw [not_or, not_le] at hstop
        have hfair : FairHop t frontier selected.toFinset (maxEntities - selected.length)
            (t.nextHop frontier selected.toFinset (maxEntities - selected.length)) :=
          nextHop_fair t hnodup (Nat.sub_pos_of_lt hstop.2)
        obtain ⟨hnext, hnewFrontier⟩ := hfair.explored h hstop.2 hfrontier
        obtain ⟨hstarts, j, hj, hjle, hfound, hroom⟩ := ih hnext hfair.nodup hnewFrontier
        have hchosen := hfair.added
        rw [← List.toFinset_append] at hchosen
        simp only [hchosen]
        exact ⟨(List.prefix_append _ _).trans hstarts, j, by omega, by omega, hfound,
          fun hless => by rw [hroom hless]; omega⟩

end Selection

/-- The nearest entities first, up to `hops` away, and none left out but for the budget. -/
structure BreadthFirst (t : Tables) (seeds : List Text) (hops maxEntities : ℕ)
    (ids : List Text) : Prop where
  nodup : ids.Nodup
  length_le : ids.length ≤ maxEntities
  seeds_first : seeds <+: ids
  sorted : ids.Pairwise fun a b =>
    distFrom t.graph {id | id ∈ seeds} a ≤ distFrom t.graph {id | id ∈ seeds} b
  within_hops : ∀ id ∈ ids, distFrom t.graph {id | id ∈ seeds} id ≤ hops
  missing : ∀ id, distFrom t.graph {id | id ∈ seeds} id ≤ hops → id ∉ ids →
    ids.length = maxEntities ∧
      ∀ a ∈ ids, distFrom t.graph {id | id ∈ seeds} a ≤ distFrom t.graph {id | id ∈ seeds} id

theorem expand_breadthFirst (t : Tables) {seeds : List Text} (hops : ℕ) {maxEntities : ℕ}
    (hnodup : seeds.Nodup) (hlen : seeds.length ≤ maxEntities) :
    BreadthFirst t seeds hops maxEntities
      (t.expand maxEntities hops seeds seeds seeds.toFinset) := by
  have hstart : Explored t.graph {id | id ∈ seeds} maxEntities 0 seeds :=
    explored_start hnodup hlen
  have hfrontier : ∀ id, id ∈ seeds ↔
      id ∈ seeds ∧ distFrom t.graph {id | id ∈ seeds} id = (0 : ℕ) := by
    intro id
    constructor
    · exact fun hid => ⟨hid, distFrom_eq_zero_iff.mpr hid⟩
    · exact fun hid => hid.1
  obtain ⟨hstarts, j, -, hj, hfound, hroom⟩ := explored_expand hstart hnodup hfrontier
  rw [Nat.zero_add] at hj hroom
  constructor
  · exact hfound.nodup
  · exact hfound.length_le
  · exact hstarts
  · exact hfound.sorted
  · exact fun id hid => (hfound.near id hid).trans (Nat.cast_le.mpr hj)
  · exact fun id hdist hid => hfound.missing hid fun hless => by rwa [hroom hless]

section Around
variable {ids : List Text} {limit : ℕ} {r : RelationshipRow} {e : CommunityEdge}

/-- Source, target and label. -/
def edgeKey (e : CommunityEdge) : Text × Text × Text := (e.sourceId, e.targetId, e.label)

def rowKey (r : RelationshipRow) : Text × Text × Text := (r.sourceId, r.targetId, r.label)

/-- The relationships of the selected entities: those between them before any other, each
once and with its weight over all documents. -/
structure Around (t : Tables) (ids : List Text) (limit : ℕ) (edges : List CommunityEdge) :
    Prop where
  length_le : edges.length ≤ limit
  nodup : (edges.map edgeKey).Nodup
  stated : ∀ e ∈ edges, ∃ r ∈ t.relationships, rowKey r = edgeKey e
  summed : ∀ e ∈ edges,
    e.weight = ∑ r ∈ t.relationships.select fun r => rowKey r = edgeKey e, r.weight
  touches : ∀ e ∈ edges, e.sourceId ∈ ids ∨ e.targetId ∈ ids
  within_first : ∀ e ∈ edges, ¬(e.sourceId ∈ ids ∧ e.targetId ∈ ids) →
    ∀ r ∈ t.relationships, r.sourceId ∈ ids → r.targetId ∈ ids → rowKey r ∈ edges.map edgeKey

theorem edgeAt_edgeOrder (ids : List Text) (e : CommunityEdge) :
    edgeAt (edgeOrder ids e) = e := by
  obtain ⟨source, target, label, weight⟩ := e
  simp [edgeAt, edgeOrder]

theorem mem_edgesAround :
    e ∈ t.edgesAround ids ↔ ∃ r ∈ t.touching ids, groupOf (t.touching ids) r = e := by
  simp [edgesAround, edgeAt_edgeOrder]

theorem edgesAround_sorted (ids : List Text) (t : Tables) :
    (t.edgesAround ids).Pairwise fun e e' => edgeOrder ids e < edgeOrder ids e' := by
  rw [edgesAround, List.pairwise_map]
  apply (pairwise_orderBy _).imp_of_mem
  intro k k' hk hk' hlt
  obtain ⟨r, -, rfl⟩ := Finset.mem_image.mp (mem_orderBy.mp hk)
  obtain ⟨r', -, rfl⟩ := Finset.mem_image.mp (mem_orderBy.mp hk')
  rwa [edgeAt_edgeOrder, edgeAt_edgeOrder]

theorem groupOf_congr {rows : Finset RelationshipRow} {r r' : RelationshipRow}
    (h : rowKey r = rowKey r') : groupOf rows r = groupOf rows r' := by
  obtain ⟨hsource, htarget, hlabel⟩ := by simpa only [rowKey, Prod.mk.injEq] using h
  simp only [groupOf, hsource, htarget, hlabel]

theorem edgesAround_nodup (ids : List Text) (t : Tables) :
    ((t.edgesAround ids).map edgeKey).Nodup := by
  have hdistinct : (t.edgesAround ids).Nodup :=
    (edgesAround_sorted ids t).imp fun hlt heq => absurd (heq ▸ hlt) (lt_irrefl _)
  apply hdistinct.map_on
  intro e he e' he' hkey
  obtain ⟨r, -, rfl⟩ := mem_edgesAround.mp he
  obtain ⟨r', -, rfl⟩ := mem_edgesAround.mp he'
  exact groupOf_congr hkey

/-- Whether a row touches `ids` depends on its key, so a group has all the rows of its key. -/
theorem groupOf_weight (hr : r ∈ t.touching ids) : (groupOf (t.touching ids) r).weight =
    ∑ q ∈ t.relationships.select fun q => rowKey q = rowKey r, q.weight := by
  have hrows : (t.touching ids).filter (fun q => rowKey q = rowKey r) =
      t.relationships.select fun q => rowKey q = rowKey r := by
    ext q
    simp only [touching, Finset.mem_filter, Table.mem_select] at hr ⊢
    constructor
    · exact fun ⟨⟨hq, _⟩, hkey⟩ => ⟨hq, hkey⟩
    · intro ⟨hq, hkey⟩
      obtain ⟨hsource, htarget, -⟩ := by simpa only [rowKey, Prod.mk.injEq] using hkey
      exact ⟨⟨hq, hsource ▸ htarget ▸ hr.2⟩, hkey⟩
  rw [← hrows]
  rfl

/-- A relationship between selected entities comes before one with an end outside. -/
theorem edgeOrder_lt {e e' : CommunityEdge} (h : e.sourceId ∈ ids ∧ e.targetId ∈ ids)
    (h' : ¬(e'.sourceId ∈ ids ∧ e'.targetId ∈ ids)) : edgeOrder ids e < edgeOrder ids e' := by
  rw [edgeOrder, edgeOrder, if_pos h, if_neg h', Prod.Lex.toLex_lt_toLex]
  exact Or.inl Nat.zero_lt_one

theorem relationshipsAround_around (t : Tables) (ids : List Text) (limit : ℕ) :
    Around t ids limit (t.relationshipsAround ids limit) := by
  rw [relationshipsAround]
  have hgroup : ∀ e ∈ (t.edgesAround ids).take limit,
      ∃ r ∈ t.touching ids, groupOf (t.touching ids) r = e :=
    fun e he => mem_edgesAround.mp (List.mem_of_mem_take he)
  constructor
  · exact List.length_take_le _ _
  · rw [List.map_take]
    exact (edgesAround_nodup ids t).sublist (List.take_sublist _ _)
  · intro e he
    obtain ⟨r, hr, rfl⟩ := hgroup e he
    exact ⟨r, (Finset.mem_filter.mp hr).1, rfl⟩
  · intro e he
    obtain ⟨r, hr, rfl⟩ := hgroup e he
    exact groupOf_weight hr
  · intro e he
    obtain ⟨r, hr, rfl⟩ := hgroup e he
    exact (Finset.mem_filter.mp hr).2
  · intro e he houtside r hr hsource htarget
    have hmem : groupOf (t.touching ids) r ∈ t.edgesAround ids :=
      mem_edgesAround.mpr ⟨r, Finset.mem_filter.mpr ⟨hr, Or.inl hsource⟩, rfl⟩
    have hlt : edgeOrder ids (groupOf (t.touching ids) r) < edgeOrder ids e :=
      edgeOrder_lt ⟨hsource, htarget⟩ houtside
    have hsorted := edgesAround_sorted ids t
    rw [← List.take_append_drop limit (t.edgesAround ids)] at hmem hsorted
    obtain ⟨-, -, hcross⟩ := List.pairwise_append.mp hsorted
    obtain hmem | hmem := List.mem_append.mp hmem
    · exact List.mem_map.mpr ⟨_, hmem, rfl⟩
    · exact absurd (hcross e he _ hmem) hlt.asymm

end Around

end Tables

/-- Everything selected is an entity: it is a seed or the end of a relationship. -/
theorem Tables.BreadthFirst.hasEntity {t : Tables} {seeds ids : List Text} {hops maxEntities : ℕ}
    (h : t.BreadthFirst seeds hops maxEntities ids) (hkeys : t.ForeignKeys)
    (hseeds : ∀ id ∈ seeds, t.HasEntity id) : ∀ id ∈ ids, t.HasEntity id := by
  intro id hid
  obtain hseed | ⟨a, hadj⟩ := mem_or_adj_of_distFrom_le (h.within_hops id hid)
  · exact hseeds id hseed
  · exact hkeys.hasEntity_of_adj hadj

/-- The expansion of existing seeds is a bounded breadth-first search, with the relationships
around what it found. -/
theorem expandNeighborhood_breadthFirst (s : GraphStore) {seedIds : List Text}
    (hseeds : ∀ id ∈ seedIds, s.HasEntity id) (hops maxEntities maxRelationships : ℕ) :
    (∀ e ∈ (s.expandNeighborhood seedIds hops maxEntities maxRelationships).1, e ∈ s.entities) ∧
    s.BreadthFirst ((distinct seedIds).take maxEntities) hops maxEntities
      ((s.expandNeighborhood seedIds hops maxEntities maxRelationships).1.map EntityRow.id) ∧
    s.Around ((s.expandNeighborhood seedIds hops maxEntities maxRelationships).1.map EntityRow.id)
      maxRelationships (s.expandNeighborhood seedIds hops maxEntities maxRelationships).2 := by
  have hsearch := s.expand_breadthFirst hops
    ((nodup_distinct seedIds).sublist (List.take_sublist maxEntities _)) (List.length_take_le _ _)
  have hexist := hsearch.hasEntity s.foreignKeys fun id hid =>
    hseeds id (mem_distinct.mp (List.mem_of_mem_take hid))
  have hids : ((s.expandNeighborhood seedIds hops maxEntities maxRelationships).1.map
      EntityRow.id) = s.expand maxEntities hops ((distinct seedIds).take maxEntities)
        ((distinct seedIds).take maxEntities) ((distinct seedIds).take maxEntities).toFinset := by
    rw [Tables.expandNeighborhood]
    exact s.entities.map_key_find hexist
  rw [hids]
  refine ⟨?_, hsearch, s.relationshipsAround_around _ _⟩
  intro e he
  obtain ⟨id, -, hfind⟩ := List.mem_filterMap.mp he
  exact ((s.entities.find?_eq_some_iff id e).mp hfind).1

/-- Three entities in a row. -/
def chain : GraphStore :=
  { GraphStore.empty with
    entities := (∅ : Table EntityRow EntityRow.id).insertAllOrReplace
      [⟨text "a", text "a", none, none, none⟩, ⟨text "b", text "b", none, none, none⟩,
        ⟨text "c", text "c", none, none, none⟩]
    relationships := (∅ : Table RelationshipRow RelationshipRow.key).insertAllOrReplace
      [⟨text "a", text "b", text "uses", 1, text "doc.py"⟩,
        ⟨text "b", text "c", text "uses", 1, text "doc.py"⟩]
    foreignKeys := by decide +kernel }

theorem chain_breadthFirst : chain.BreadthFirst [text "a"] 2 10
    ((chain.expandNeighborhood [text "a"] 2 10 1).1.map EntityRow.id) := by
  have hseeds : ∀ id ∈ [text "a"], chain.HasEntity id := by
    intro id hid
    rw [List.mem_singleton] at hid
    exact ⟨⟨text "a", text "a", none, none, none⟩, by decide +kernel, hid.symm⟩
  exact (expandNeighborhood_breadthFirst chain hseeds 2 10 1).2.1

end LocalGraphRag.Graph
