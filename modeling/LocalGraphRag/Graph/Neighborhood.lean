import LocalGraphRag.Graph.Communities
import LocalGraphRag.Networks.Distance
import LocalGraphRag.Sequences.RoundRobin

/-!
# The neighborhood of some entities

The breadth-first expansion of seed entities within an entity budget, and the relationships
around what it selects.

## Implementation notes

The rows of a hop are ordered by weight and neighbor; where these agree for two parents the
order between them is left open by the query, and here it is that of the parents. It is not
seen in the ranked list of either parent. A limit of relationships is a natural number.
-/

namespace LocalGraphRag.Graph

open Python Relational Sequences Networks

namespace Tables

/-- The relationships with their source in `ids`. -/
def outgoing (ids : List Text) (t : Tables) : Finset RelationshipRow :=
  t.relationships.select fun r => r.sourceId ∈ ids

/-- The relationships with their target in `ids`. -/
def incoming (ids : List Text) (t : Tables) : Finset RelationshipRow :=
  t.relationships.select fun r => r.targetId ∈ ids

/-- The edges of a hop as parent and neighbor, each seen from both ends. -/
def hopEdges (ids : List Text) (t : Tables) : Finset (Text × Text) :=
  (t.outgoing ids).image (fun r => (r.sourceId, r.targetId)) ∪
    (t.incoming ids).image fun r => (r.targetId, r.sourceId)

/-- `SUM(weight)` over the rows of a parent and a neighbor. -/
def hopWeight (ids : List Text) (t : Tables) (edge : Text × Text) : ℚ :=
  ∑ r ∈ (t.outgoing ids).filter fun r => (r.sourceId, r.targetId) = edge, r.weight +
    ∑ r ∈ (t.incoming ids).filter fun r => (r.targetId, r.sourceId) = edge, r.weight

/-- `GROUP BY parent, neighbor ORDER BY SUM(weight) DESC, neighbor`. -/
def neighborRows (ids : List Text) (t : Tables) : List (Text × Text) :=
  (orderBy ((t.hopEdges ids).image fun edge =>
    toLex (-t.hopWeight ids edge, toLex (edge.2, edge.1)))).map fun k =>
      ((ofLex (ofLex k).2).2, (ofLex (ofLex k).2).1)

/-- `ranked`: the unchosen neighbors of each parent of the frontier. -/
def ranked (frontier : List Text) (chosen : Finset Text) (t : Tables) : List (List Text) :=
  let rows := t.neighborRows frontier
  (distinct frontier).map fun parent =>
    (rows.filter fun row => row.1 = parent ∧ row.2 ∉ chosen).map Prod.snd

/-- The loop over the tiers, which returns as soon as `budget` neighbors are picked. -/
def pick (budget : Nat) : List (Option Text) → Finset Text → List Text → List Text × Finset Text
  | [], chosen, picked => (picked, chosen)
  | none :: rest, chosen, picked => pick budget rest chosen picked
  | some neighbor :: rest, chosen, picked =>
      if neighbor ∈ chosen then pick budget rest chosen picked
      else
        let chosen := insert neighbor chosen
        let picked := picked ++ [neighbor]
        if picked.length = budget then (picked, chosen) else pick budget rest chosen picked

/-- `_next_hop`: the picked neighbors, and what is chosen then. -/
def nextHop (frontier : List Text) (chosen : Finset Text) (budget : Nat) (t : Tables) :
    List Text × Finset Text :=
  pick budget (zipLongest (t.ranked frontier chosen)).flatten chosen []

/-- The hops of `expand_neighborhood`: what is selected in the end. -/
def expand (maxEntities : Nat) (t : Tables) :
    Nat → List Text → List Text → Finset Text → List Text
  | 0, selected, _, _ => selected
  | hops + 1, selected, frontier, chosen =>
      if frontier = [] ∨ maxEntities ≤ selected.length then selected
      else
        let hop := t.nextHop frontier chosen (maxEntities - selected.length)
        expand maxEntities t hops (selected ++ hop.1) hop.1 hop.2

/-- The group of a row: the weights of the rows with its source, target and label. -/
def groupOf (rows : Finset RelationshipRow) (r : RelationshipRow) : CommunityEdge where
  sourceId := r.sourceId
  targetId := r.targetId
  label := r.label
  weight := ∑ q ∈ rows.filter fun q =>
    (q.sourceId, q.targetId, q.label) = (r.sourceId, r.targetId, r.label), q.weight

/-- What the relationships are ordered by. -/
abbrev EdgeOrder := ℕ ×ₗ ℚ ×ₗ Text ×ₗ Text ×ₗ Text

/-- Those within `ids` first, then the heaviest, then by source, target and label. -/
def edgeOrder (ids : List Text) (e : CommunityEdge) : EdgeOrder :=
  toLex (if e.sourceId ∈ ids ∧ e.targetId ∈ ids then 0 else 1,
    toLex (-e.weight, toLex (e.sourceId, toLex (e.targetId, e.label))))

/-- The relationship at its place in the order. -/
def edgeAt (k : EdgeOrder) : CommunityEdge :=
  let fields := ofLex (ofLex (ofLex k).2).2
  ⟨fields.1, (ofLex fields.2).1, (ofLex fields.2).2, -(ofLex (ofLex k).2).1⟩

/-- The rows that touch `ids`. -/
def touching (ids : List Text) (t : Tables) : Finset RelationshipRow :=
  t.relationships.select fun r => r.sourceId ∈ ids ∨ r.targetId ∈ ids

/-- The groups of the rows that touch `ids`, in order. -/
def edgesAround (ids : List Text) (t : Tables) : List CommunityEdge :=
  (orderBy ((t.touching ids).image fun r => edgeOrder ids (groupOf (t.touching ids) r))).map edgeAt

/-- The relationships that touch `ids`, at most `limit` of them. -/
def relationshipsAround (ids : List Text) (limit : Nat) (t : Tables) : List CommunityEdge :=
  (t.edgesAround ids).take limit

/-- The entities linked to the chunks, in the order of these, then by id. -/
def getEntitiesByChunkIds (chunkIds : List Text) (t : Tables) : List Text :=
  distinct (chunkIds.flatMap fun chunkId =>
    orderBy ((t.chunkEntities.select fun l => l.chunkId = chunkId).image LinkRow.entityId))

/-- `expand_neighborhood`. -/
def expandNeighborhood (seedIds : List Text) (hops maxEntities maxRelationships : Nat)
    (t : Tables) : List EntityRow × List CommunityEdge :=
  let seeds := (distinct seedIds).take maxEntities
  let selected := t.expand maxEntities hops seeds seeds seeds.toFinset
  (selected.filterMap t.entities.find?, t.relationshipsAround selected maxRelationships)

section Hop
variable {t : Tables} {frontier : List Text} {chosen : Finset Text} {parent n : Text}

/-- The entities that a relationship links to `parent`, in either direction. -/
def neighbors (parent : Text) (t : Tables) : Finset Text :=
  (t.relationships.select fun r => r.sourceId = parent).image RelationshipRow.targetId ∪
    (t.relationships.select fun r => r.targetId = parent).image RelationshipRow.sourceId

/-- The weight between two entities over labels, documents and directions. -/
def neighborWeight (parent neighbor : Text) (t : Tables) : ℚ :=
  ∑ r ∈ t.relationships.select fun r => (r.sourceId, r.targetId) = (parent, neighbor), r.weight +
    ∑ r ∈ t.relationships.select fun r => (r.targetId, r.sourceId) = (parent, neighbor), r.weight

/-- The heavier neighbor comes first, of equal ones that with the smaller id. -/
def rankKey (parent : Text) (t : Tables) (neighbor : Text) : ℚ ×ₗ Text :=
  toLex (-t.neighborWeight parent neighbor, neighbor)

/-- The `k` heaviest unchosen neighbors: fewer than `k` rank before each. -/
def heaviest (chosen : Finset Text) (parent : Text) (k : Nat) (t : Tables) : Finset Text :=
  let unchosen := t.neighbors parent \ chosen
  unchosen.filter fun n =>
    (unchosen.filter fun m => t.rankKey parent m < t.rankKey parent n).card < k

theorem mem_hopEdges : (parent, n) ∈ t.hopEdges frontier ↔
    parent ∈ frontier ∧ n ∈ t.neighbors parent := by
  simp only [hopEdges, outgoing, incoming, neighbors, Finset.mem_union, Finset.mem_image,
    Table.mem_select, Prod.mk.injEq]
  constructor
  · intro h
    obtain ⟨r, ⟨hr, hmem⟩, rfl, rfl⟩ | ⟨r, ⟨hr, hmem⟩, rfl, rfl⟩ := h
    · exact ⟨hmem, Or.inl ⟨r, ⟨hr, rfl⟩, rfl⟩⟩
    · exact ⟨hmem, Or.inr ⟨r, ⟨hr, rfl⟩, rfl⟩⟩
  · intro h
    obtain ⟨hmem, h⟩ := h
    obtain ⟨r, ⟨hr, rfl⟩, rfl⟩ | ⟨r, ⟨hr, rfl⟩, rfl⟩ := h
    · exact Or.inl ⟨r, ⟨hr, hmem⟩, rfl, rfl⟩
    · exact Or.inr ⟨r, ⟨hr, hmem⟩, rfl, rfl⟩

theorem mem_neighborRows : (parent, n) ∈ t.neighborRows frontier ↔
    parent ∈ frontier ∧ n ∈ t.neighbors parent := by
  rw [← mem_hopEdges]
  simp [neighborRows]

/-- For a parent of the frontier, the rows of the query are all the rows of the table. -/
theorem hopWeight_eq (h : parent ∈ frontier) :
    t.hopWeight frontier (parent, n) = t.neighborWeight parent n := by
  have hout : (t.outgoing frontier).filter (fun r => (r.sourceId, r.targetId) = (parent, n)) =
      t.relationships.select fun r => (r.sourceId, r.targetId) = (parent, n) := by
    ext r
    simp only [outgoing, Finset.mem_filter, Table.mem_select, Prod.mk.injEq]
    constructor
    · exact fun ⟨⟨hr, _⟩, hedge⟩ => ⟨hr, hedge⟩
    · exact fun ⟨hr, hedge⟩ => ⟨⟨hr, hedge.1 ▸ h⟩, hedge⟩
  have hin : (t.incoming frontier).filter (fun r => (r.targetId, r.sourceId) = (parent, n)) =
      t.relationships.select fun r => (r.targetId, r.sourceId) = (parent, n) := by
    ext r
    simp only [incoming, Finset.mem_filter, Table.mem_select, Prod.mk.injEq]
    constructor
    · exact fun ⟨⟨hr, _⟩, hedge⟩ => ⟨hr, hedge⟩
    · exact fun ⟨hr, hedge⟩ => ⟨⟨hr, hedge.1 ▸ h⟩, hedge⟩
  rw [hopWeight, neighborWeight, hout, hin]

/-- The rows are in the order of their summed weight, then of the neighbor. -/
theorem pairwise_neighborRows (frontier : List Text) (t : Tables) :
    (t.neighborRows frontier).Pairwise fun a b =>
      toLex (-t.hopWeight frontier a, toLex (a.2, a.1)) <
        toLex (-t.hopWeight frontier b, toLex (b.2, b.1)) := by
  rw [neighborRows, List.pairwise_map]
  apply (pairwise_orderBy _).imp_of_mem
  intro k k' hk hk' hlt
  obtain ⟨edge, -, rfl⟩ := Finset.mem_image.mp (mem_orderBy.mp hk)
  obtain ⟨edge', -, rfl⟩ := Finset.mem_image.mp (mem_orderBy.mp hk')
  exact hlt

/-- The unchosen neighbors of a parent, in the order of the rows. -/
def rankedOf (frontier : List Text) (chosen : Finset Text) (t : Tables) (parent : Text) :
    List Text :=
  ((t.neighborRows frontier).filter fun row => row.1 = parent ∧ row.2 ∉ chosen).map Prod.snd

theorem mem_rankedOf (h : parent ∈ frontier) :
    n ∈ t.rankedOf frontier chosen parent ↔ n ∈ t.neighbors parent \ chosen := by
  rw [rankedOf, List.mem_map, Finset.mem_sdiff]
  constructor
  · intro ⟨row, hrow, heq⟩
    obtain ⟨hmem, hkept⟩ := List.mem_filter.mp hrow
    obtain ⟨hparent, hunchosen⟩ := of_decide_eq_true hkept
    obtain ⟨p, m⟩ := row
    subst heq hparent
    exact ⟨(mem_neighborRows.mp hmem).2, hunchosen⟩
  · intro ⟨hmem, hunchosen⟩
    refine ⟨(parent, n), List.mem_filter.mpr ⟨mem_neighborRows.mpr ⟨h, hmem⟩, ?_⟩, rfl⟩
    exact decide_eq_true ⟨rfl, hunchosen⟩

theorem rankedOf_sorted (h : parent ∈ frontier) (chosen : Finset Text) :
    (t.rankedOf frontier chosen parent).Pairwise
      fun m n => t.rankKey parent m < t.rankKey parent n := by
  rw [rankedOf, List.pairwise_map]
  apply ((pairwise_neighborRows frontier t).filter _).imp_of_mem
  intro a b ha hb hlt
  obtain ⟨-, hakept⟩ := List.mem_filter.mp ha
  obtain ⟨-, hbkept⟩ := List.mem_filter.mp hb
  obtain ⟨hparent, -⟩ := of_decide_eq_true hakept
  obtain ⟨hparent', -⟩ := of_decide_eq_true hbkept
  obtain ⟨p, m⟩ := a
  obtain ⟨p', m'⟩ := b
  subst hparent hparent'
  rw [hopWeight_eq h, hopWeight_eq h, Prod.Lex.toLex_lt_toLex] at hlt
  rw [rankKey, rankKey, Prod.Lex.toLex_lt_toLex]
  obtain hless | ⟨heq, hid⟩ := hlt
  · exact Or.inl hless
  · obtain hid | ⟨-, hid⟩ := Prod.Lex.toLex_lt_toLex.mp hid
    · exact Or.inr ⟨heq, hid⟩
    · exact absurd hid (lt_irrefl _)

/-- Among the `k` heaviest is ranked below `k`. -/
theorem exists_rank_of_heaviest {k : Nat} (h : parent ∈ frontier)
    (hn : n ∈ t.heaviest chosen parent k) :
    ∃ j < k, (t.rankedOf frontier chosen parent)[j]? = some n := by
  have hset : (t.rankedOf frontier chosen parent).toFinset = t.neighbors parent \ chosen := by
    ext m
    rw [List.mem_toFinset, mem_rankedOf h]
  obtain ⟨hmem, hcard⟩ := Finset.mem_filter.mp hn
  obtain ⟨j, hj⟩ := List.mem_iff_getElem?.mp ((mem_rankedOf h).mpr hmem)
  have hrank := card_filter_key_lt (rankedOf_sorted h chosen) hj
  rw [hset] at hrank
  exact ⟨j, by omega, hj⟩

/-- The loop picks the first fresh neighbors, as many as the budget has left. -/
theorem pick_eq {budget : Nat} {items : List (Option Text)} {picked : List Text}
    (hroom : picked.length < budget) :
    pick budget items chosen picked =
      (picked ++ (fresh chosen items).take (budget - picked.length),
        chosen ∪ ((fresh chosen items).take (budget - picked.length)).toFinset) := by
  induction items generalizing chosen picked with
  | nil => simp [pick, fresh]
  | cons item items ih =>
      cases item with
      | none => rw [pick, fresh, ih hroom]
      | some a =>
          rw [pick, fresh]
          split_ifs with ha
          · exact ih hroom
          · have hlen : (picked ++ [a]).length = picked.length + 1 := by simp
            obtain ⟨left, hleft⟩ := Nat.exists_eq_add_of_lt hroom
            have hbudget : budget - picked.length = left + 1 := by omega
            simp only [hlen]
            split_ifs with hlast
            · have hzero : left = 0 := by omega
              rw [hbudget, hzero, List.take_succ_cons, List.take_zero, List.toFinset_cons,
                List.toFinset_nil, Finset.union_insert, Finset.union_empty]
            · rw [ih (by omega), hbudget, hlen]
              have hrest : budget - (picked.length + 1) = left := by omega
              rw [hrest, List.take_succ_cons, List.toFinset_cons, List.append_assoc]
              simp [Finset.insert_union, Finset.union_insert]

theorem nextHop_eq {budget : Nat} (hbudget : 1 ≤ budget) :
    t.nextHop frontier chosen budget =
      ((fresh chosen (zipLongest (t.ranked frontier chosen)).flatten).take budget, chosen ∪
        ((fresh chosen (zipLongest (t.ranked frontier chosen)).flatten).take budget).toFinset) := by
  have hroom : ([] : List Text).length < budget := hbudget
  rw [nextHop, pick_eq hroom]
  simp

theorem some_mem_ranked : some n ∈ (zipLongest (t.ranked frontier chosen)).flatten ↔
    ∃ p ∈ frontier, n ∈ t.neighbors p \ chosen := by
  rw [some_mem_tiers]
  constructor
  · intro ⟨l, hl, hn⟩
    obtain ⟨p, hp, rfl⟩ := List.mem_map.mp hl
    have hp := mem_distinct.mp hp
    exact ⟨p, hp, (mem_rankedOf hp).mp hn⟩
  · intro ⟨p, hp, hn⟩
    exact ⟨t.rankedOf frontier chosen p, List.mem_map_of_mem (mem_distinct.mpr hp),
      (mem_rankedOf hp).mpr hn⟩

/-- A fair hop: within the budget, only new neighbors, and for each parent as many of its
heaviest ones as an equal share of the budget allows. -/
structure FairHop (t : Tables) (frontier : List Text) (chosen : Finset Text) (budget : Nat)
    (hop : List Text × Finset Text) : Prop where
  within_budget : hop.1.length ≤ budget
  nodup : hop.1.Nodup
  unchosen : ∀ n ∈ hop.1, n ∉ chosen
  neighbor : ∀ n ∈ hop.1, ∃ p ∈ frontier, n ∈ t.neighbors p
  added : hop.2 = chosen ∪ hop.1.toFinset
  heaviest : ∀ k, k * frontier.length ≤ budget → ∀ p ∈ frontier,
    ∀ n ∈ t.heaviest chosen p k, n ∈ hop.1
  complete : hop.1.length < budget → ∀ p ∈ frontier, ∀ n ∈ t.neighbors p,
    n ∉ chosen → n ∈ hop.1

/-- No parent takes the share of another one. -/
theorem nextHop_fair (t : Tables) {frontier : List Text} (hnodup : frontier.Nodup)
    {chosen : Finset Text} {budget : Nat} (hbudget : 1 ≤ budget) :
    FairHop t frontier chosen budget (t.nextHop frontier chosen budget) := by
  rw [nextHop_eq hbudget]
  have hfresh : ∀ n, n ∈ fresh chosen (zipLongest (t.ranked frontier chosen)).flatten ↔
      (∃ p ∈ frontier, n ∈ t.neighbors p) ∧ n ∉ chosen := by
    intro n
    rw [mem_fresh, some_mem_ranked]
    simp only [Finset.mem_sdiff]
    constructor
    · exact fun ⟨⟨p, hp, hn, _⟩, hunchosen⟩ => ⟨⟨p, hp, hn⟩, hunchosen⟩
    · exact fun ⟨⟨p, hp, hn⟩, hunchosen⟩ => ⟨⟨p, hp, hn, hunchosen⟩, hunchosen⟩
  constructor
  · exact List.length_take_le _ _
  · exact (nodup_fresh _ _).sublist (List.take_sublist _ _)
  · exact fun n hn => ((hfresh n).mp (List.mem_of_mem_take hn)).2
  · exact fun n hn => ((hfresh n).mp (List.mem_of_mem_take hn)).1
  · rfl
  · intro k hk p hp n hn
    obtain ⟨j, hj, hrank⟩ := exists_rank_of_heaviest hp hn
    have hunchosen := (Finset.mem_sdiff.mp (Finset.mem_filter.mp hn).1).2
    have hlists : (t.ranked frontier chosen).length = frontier.length := by
      rw [ranked, List.length_map, distinct_of_nodup hnodup]
    exact mem_take_fresh_of_rank (List.mem_map_of_mem (mem_distinct.mpr hp)) hrank hj
      (hlists ▸ hk) hunchosen
  · intro hless p hp n hn hunchosen
    rw [List.length_take, min_lt_iff] at hless
    obtain hless | hless := hless
    · exact absurd hless (lt_irrefl _)
    · rw [List.take_of_length_le hless.le]
      exact (hfresh n).mpr ⟨⟨p, hp, hn⟩, hunchosen⟩

/-- A hub with three neighbors and a leaf with one. -/
def hubAndLeaf : Tables :=
  { GraphStore.empty with
    relationships := (∅ : Table RelationshipRow RelationshipRow.key).insertAllOrReplace
      [⟨text "hub", text "h1", text "uses", 1, text "doc.py"⟩,
        ⟨text "hub", text "h2", text "uses", 1, text "doc.py"⟩,
        ⟨text "h3", text "hub", text "uses", 1, text "doc.py"⟩,
        ⟨text "leaf", text "l1", text "uses", 1, text "doc.py"⟩] }

/-- The hub leaves a place for the leaf. -/
theorem nextHop_fair_leaf :
    text "l1" ∈ (hubAndLeaf.nextHop [text "hub", text "leaf"] {text "hub", text "leaf"} 2).1 :=
  (nextHop_fair hubAndLeaf (by decide) (by decide)).heaviest 1 (by decide) (text "leaf")
    (by decide) (text "l1") (by decide +kernel)

end Hop

end Tables

end LocalGraphRag.Graph
