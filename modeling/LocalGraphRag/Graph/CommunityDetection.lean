import LocalGraphRag.Graph.Clusters
import LocalGraphRag.Graph.Summarizer
import Mathlib.Algebra.Order.BigOperators.Group.Finset
import Mathlib.Algebra.Order.Field.Basic
import Mathlib.Algebra.Order.Ring.Rat
import Mathlib.Data.Rat.Cast.Order

/-!
# The clustering is a partition, and what detection assigns

The communities that `_cluster` returns partition the entities of the relationship graph and
of the co-occurrence map. An entity outside the relationship graph is attached by its
distance from it. From this follows which entities have a community after detection.

## Implementation notes

Of the library's communities it is assumed that they partition the nodes of a graph that has
any. Distances are in the graph of the co-occurring pairs. The members of a community are
written to the store in the order of their ids, where the source takes them from a set.
-/

namespace LocalGraphRag.Graph

open Python Relational Sequences Networks

/-- The communities of every graph with nodes are a partition of them. -/
def ReturnsParts (louvainCommunities : NxGraph → List (Finset Text)) : Prop :=
  ∀ graph : NxGraph, graph.nodes.Nonempty → Parts (louvainCommunities graph) graph.nodes

section Start
variable {louvainCommunities : NxGraph → List (Finset Text)} {graph : NxGraph}
variable {communities : List (Finset Text)} {whole : Finset Text}

theorem parts_louvain (h : ReturnsParts louvainCommunities) (graph : NxGraph) :
    Parts (louvain louvainCommunities graph) graph.nodes := by
  rw [louvain]
  split_ifs with hnone
  · rw [Finset.card_eq_zero.mp hnone]
    exact parts_nil
  · have hnodes : graph.nodes.Nonempty := Finset.card_pos.mp (Nat.pos_of_ne_zero hnone)
    exact (h graph hnodes).perm (List.perm_insertionSort _ _).symm

theorem start_consistent (h : communities.Pairwise Disjoint) :
    (Assignment.start communities).Consistent := by
  intro e i
  have hmem : ∀ c ∈ communities.zipIdx.filter (fun c => e ∈ c.1), InPart communities c.2 e := by
    intro c hc
    obtain ⟨hzip, he⟩ := List.mem_filter.mp hc
    exact ⟨c.1, List.mem_zipIdx_iff_getElem?.mp hzip, of_decide_eq_true he⟩
  change ((communities.zipIdx.filter fun c => e ∈ c.1).getLast?).map Prod.snd = some i ↔ _
  rw [Option.map_eq_some_iff]
  constructor
  · intro ⟨c, hc, hi⟩
    exact hi ▸ hmem c (List.mem_of_getLast? hc)
  · intro hpart
    obtain ⟨part, hget, he⟩ := hpart
    have hfound : (part, i) ∈ communities.zipIdx.filter fun c => e ∈ c.1 :=
      List.mem_filter.mpr ⟨List.mem_zipIdx_iff_getElem?.mpr hget, decide_eq_true he⟩
    obtain ⟨c, hc⟩ := Option.ne_none_iff_exists'.mp
      (mt List.getLast?_eq_none_iff.mp (List.ne_nil_of_mem hfound))
    exact ⟨c, hc, InPart.unique h (hmem c (List.mem_of_getLast? hc)) ⟨part, hget, he⟩⟩

theorem start_ne_none_iff (h : Parts communities whole) (e : Text) :
    (Assignment.start communities).communityOf e ≠ none ↔ e ∈ whole := by
  rw [h.mem_iff, ← exists_inPart, Option.ne_none_iff_exists']
  simp only [start_consistent h.disjoint e]
  rfl

end Start

section Partition
variable {louvainCommunities : NxGraph → List (Finset Text)} {llmGraph : NxGraph}
variable {cooccurrence : Cooccurrence} {s : Assignment} {f₀ : Text → Option ℕ} {n : ℕ} {e : Text}

theorem mem_entitiesOf : e ∈ entitiesOf cooccurrence ↔
    ∃ pair ∈ cooccurrence, pair.1.1 = e ∨ pair.1.2 = e := by
  simp [entitiesOf, eq_comm]

/-- A pair has either both ends placed or none. -/
theorem Attached.ends_iff (h : Attached cooccurrence {e | e ∈ llmGraph.nodes} f₀ n s)
    {pair : (Text × Text) × ℚ} (hpair : pair ∈ cooccurrence) :
    s.communityOf pair.1.1 = none ↔ s.communityOf pair.1.2 = none := by
  have hnone : ∀ v i w, (v, i, w) ∉ affinities cooccurrence s.communityOf := by
    intro v i w hmem
    rw [h.closed] at hmem
    exact List.not_mem_nil hmem
  constructor
  · intro hfirst
    by_contra hsecond
    obtain ⟨i, hi⟩ := Option.ne_none_iff_exists'.mp hsecond
    exact hnone _ i _ (mem_affinities.mpr ⟨pair, hpair, rfl, hfirst, Or.inl ⟨rfl, hi⟩⟩)
  · intro hsecond
    by_contra hfirst
    obtain ⟨i, hi⟩ := Option.ne_none_iff_exists'.mp hfirst
    exact hnone _ i _ (mem_affinities.mpr ⟨pair, hpair, rfl, hsecond, Or.inr ⟨rfl, hi⟩⟩)

/-- The residual graph has the nodes that are not placed. -/
theorem Attached.residual_nodes (h : Attached cooccurrence {e | e ∈ llmGraph.nodes} f₀ n s) :
    (NxGraph.mk [] (cooccurrence.filter fun pair =>
      s.communityOf pair.1.1 = none ∧ s.communityOf pair.1.2 = none)).nodes =
        unplaced cooccurrence s := by
  ext e
  rw [NxGraph.nodes, List.toFinset_nil, Finset.empty_union, mem_entitiesOf, unplaced,
    Finset.mem_filter, mem_entitiesOf]
  simp only [List.mem_filter, decide_eq_true_eq]
  constructor
  · intro ⟨pair, ⟨hpair, hfirst, hsecond⟩, hend⟩
    obtain rfl | rfl := hend
    · exact ⟨⟨pair, hpair, Or.inl rfl⟩, hfirst⟩
    · exact ⟨⟨pair, hpair, Or.inr rfl⟩, hsecond⟩
  · intro ⟨⟨pair, hpair, hend⟩, hnone⟩
    obtain rfl | rfl := hend
    · exact ⟨pair, ⟨hpair, hnone, (h.ends_iff hpair).mp hnone⟩, Or.inl rfl⟩
    · exact ⟨pair, ⟨hpair, (h.ends_iff hpair).mpr hnone, hnone⟩, Or.inr rfl⟩

/-- What is placed is in the relationship graph or in a pair. -/
theorem Attached.mem_of_placed (h : Attached cooccurrence {e | e ∈ llmGraph.nodes} f₀ n s)
    (he : s.communityOf e ≠ none) : e ∈ llmGraph.nodes ∪ entitiesOf cooccurrence := by
  obtain ⟨k, hk⟩ := h.upTo
  rw [Finset.mem_union]
  obtain hnode | ⟨u, hadj⟩ := mem_or_adj_of_distFrom_le ((hk.reached e).mp he)
  · exact Or.inl hnode
  · obtain ⟨-, ⟨pair, hpair, heq⟩ | ⟨pair, hpair, heq⟩⟩ := (SimpleGraph.fromRel_adj _ _ _).mp hadj
    · exact Or.inr (mem_entitiesOf.mpr ⟨pair, hpair, Or.inr (by rw [heq])⟩)
    · exact Or.inr (mem_entitiesOf.mpr ⟨pair, hpair, Or.inl (by rw [heq])⟩)

/-- The communities of the loop partition what is placed. -/
theorem Attached.parts (h : Attached cooccurrence {e | e ∈ llmGraph.nodes} f₀ n s)
    (hnonempty : ∀ i < n, ∃ e, f₀ e = some i) :
    Parts s.communities ((llmGraph.nodes ∪ entitiesOf cooccurrence).filter
      fun e => s.communityOf e ≠ none) := by
  obtain ⟨k, hk⟩ := h.upTo
  constructor
  · intro part hpart
    obtain ⟨i, hi⟩ := List.mem_iff_getElem?.mp hpart
    have hlt := (List.getElem?_eq_some_iff.mp hi).1
    obtain ⟨e, he⟩ := hnonempty i (h.length ▸ hlt)
    obtain ⟨part', hi', hmem⟩ := (h.consistent e i).mp (hk.kept e i he)
    obtain rfl := Option.some.inj (hi.symm.trans hi')
    exact ⟨e, hmem⟩
  · apply pairwise_disjoint_of_unique
    intro e i j hi hj
    apply Option.some.inj
    calc some i = s.communityOf e := ((h.consistent e i).mpr hi).symm
      _ = some j := (h.consistent e j).mpr hj
  · intro e
    rw [Finset.mem_filter, ← exists_inPart]
    simp only [← h.consistent e]
    rw [← Option.ne_none_iff_exists']
    exact ⟨fun he => he.2, fun he => ⟨h.mem_of_placed he, he⟩⟩

end Partition

section Spec
variable (louvainCommunities : NxGraph → List (Finset Text)) (llmGraph : NxGraph)
variable (cooccurrence : Cooccurrence)

/-- The distance of an entity from the relationship graph, over co-occurring pairs. -/
noncomputable def llmDistance (e : Text) : ℕ∞ :=
  distFrom (edgeGraph cooccurrence) {e | e ∈ llmGraph.nodes} e

open Classical in
/-- The weight between `e` and the entities of community `i` nearer than `d`. -/
noncomputable def nearWeight (result : List (Finset Text)) (e : Text) (d i : ℕ) : ℚ :=
  weightTo cooccurrence e fun x =>
    llmDistance llmGraph cooccurrence x < d ∧ InPart result i x

open Classical in
/-- The entities of the map from which no path leads to the relationship graph. -/
noncomputable def unreached : Finset Text :=
  (entitiesOf cooccurrence).filter fun e => llmDistance llmGraph cooccurrence e = ⊤

open Classical in
/-- The pairs of the residual graph. -/
noncomputable def residualPairs : Cooccurrence :=
  cooccurrence.filter fun pair => llmDistance llmGraph cooccurrence pair.1.1 = ⊤ ∧
    llmDistance llmGraph cooccurrence pair.1.2 = ⊤

/-- The communities of the relationship graph come first, each with what was attached to it,
and the rest is clustered by itself. -/
structure ClusterSpec (result : List (Finset Text)) : Prop where
  parts : Parts result (llmGraph.nodes ∪ entitiesOf cooccurrence)
  together : ∀ i e, InPart (louvain louvainCommunities llmGraph) i e → InPart result i e
  attached : ∀ e, e ∉ llmGraph.nodes →
    ((∃ i < (louvain louvainCommunities llmGraph).length, InPart result i e) ↔
      ∃ m ∈ llmGraph.nodes, (edgeGraph cooccurrence).Reachable m e)
  joined : ∀ e (d : ℕ), 0 < d → llmDistance llmGraph cooccurrence e = d →
    ∃ i < (louvain louvainCommunities llmGraph).length, InPart result i e ∧
      ∀ j, nearWeight llmGraph cooccurrence result e d j <
          nearWeight llmGraph cooccurrence result e d i ∨
        nearWeight llmGraph cooccurrence result e d j =
          nearWeight llmGraph cooccurrence result e d i ∧ i ≤ j
  order_free : ∀ cooccurrence', cooccurrence'.Perm cooccurrence →
    (cluster louvainCommunities llmGraph cooccurrence').take
        (louvain louvainCommunities llmGraph).length =
      result.take (louvain louvainCommunities llmGraph).length
  residual : result.drop (louvain louvainCommunities llmGraph).length =
    louvain louvainCommunities ⟨[], residualPairs llmGraph cooccurrence⟩
  rest : Parts (result.drop (louvain louvainCommunities llmGraph).length)
    (unreached llmGraph cooccurrence)

end Spec

section Correct
variable {louvainCommunities : NxGraph → List (Finset Text)} {llmGraph : NxGraph}
variable {cooccurrence : Cooccurrence} {e : Text}

/-- The loop of `_cluster` when it ends. -/
def attachedTo (louvainCommunities : NxGraph → List (Finset Text)) (llmGraph : NxGraph)
    (cooccurrence : Cooccurrence) : Assignment :=
  attach cooccurrence (Assignment.start (louvain louvainCommunities llmGraph))

theorem exists_cluster_eq (louvainCommunities : NxGraph → List (Finset Text))
    (llmGraph : NxGraph) (cooccurrence : Cooccurrence) :
    ∃ rest, cluster louvainCommunities llmGraph cooccurrence =
      (attachedTo louvainCommunities llmGraph cooccurrence).communities ++ rest := ⟨_, rfl⟩

theorem attached_attachedTo (h : ReturnsParts louvainCommunities) (llmGraph : NxGraph)
    (hpos : ∀ pair ∈ cooccurrence, 0 < pair.2) :
    Attached cooccurrence {e | e ∈ llmGraph.nodes}
      (Assignment.start (louvain louvainCommunities llmGraph)).communityOf
      (louvain louvainCommunities llmGraph).length
      (attachedTo louvainCommunities llmGraph cooccurrence) := by
  have hparts := parts_louvain h llmGraph
  exact attached_attach hpos (start_consistent hparts.disjoint)
    (attachedUpTo_zero (start_ne_none_iff hparts))

theorem communityOf_eq_none_iff (h : ReturnsParts louvainCommunities)
    (hpos : ∀ pair ∈ cooccurrence, 0 < pair.2) :
    (attachedTo louvainCommunities llmGraph cooccurrence).communityOf e = none ↔
      llmDistance llmGraph cooccurrence e = ⊤ :=
  not_iff_not.mp ((attached_attachedTo h llmGraph hpos).placed_iff e)

theorem residualPairs_eq (h : ReturnsParts louvainCommunities)
    (hpos : ∀ pair ∈ cooccurrence, 0 < pair.2) :
    residualPairs llmGraph cooccurrence = cooccurrence.filter fun pair =>
      (attachedTo louvainCommunities llmGraph cooccurrence).communityOf pair.1.1 = none ∧
        (attachedTo louvainCommunities llmGraph cooccurrence).communityOf pair.1.2 = none := by
  apply List.filter_congr
  intro pair _
  simp only [communityOf_eq_none_iff h hpos]

/-- The result is what the loop left and the communities of the residual graph. -/
theorem cluster_eq (h : ReturnsParts louvainCommunities)
    (hpos : ∀ pair ∈ cooccurrence, 0 < pair.2) :
    cluster louvainCommunities llmGraph cooccurrence =
      (attachedTo louvainCommunities llmGraph cooccurrence).communities ++
        louvain louvainCommunities ⟨[], residualPairs llmGraph cooccurrence⟩ := by
  rw [residualPairs_eq h hpos]
  rfl

theorem residual_nodes_eq (h : ReturnsParts louvainCommunities)
    (hpos : ∀ pair ∈ cooccurrence, 0 < pair.2) :
    (NxGraph.mk [] (residualPairs llmGraph cooccurrence)).nodes =
      unreached llmGraph cooccurrence := by
  rw [residualPairs_eq h hpos, (attached_attachedTo h llmGraph hpos).residual_nodes, unplaced]
  apply Finset.filter_congr
  exact fun e _ => communityOf_eq_none_iff h hpos

theorem parts_rest (h : ReturnsParts louvainCommunities)
    (hpos : ∀ pair ∈ cooccurrence, 0 < pair.2) :
    Parts (louvain louvainCommunities ⟨[], residualPairs llmGraph cooccurrence⟩)
      (unreached llmGraph cooccurrence) := by
  have hparts := parts_louvain h ⟨[], residualPairs llmGraph cooccurrence⟩
  rwa [residual_nodes_eq h hpos] at hparts

/-- What can be reached is found where the loop has put it. -/
theorem inPart_cluster_iff (h : ReturnsParts louvainCommunities)
    (hpos : ∀ pair ∈ cooccurrence, 0 < pair.2) (he : llmDistance llmGraph cooccurrence e ≠ ⊤)
    (i : ℕ) : InPart (cluster louvainCommunities llmGraph cooccurrence) i e ↔
      (attachedTo louvainCommunities llmGraph cooccurrence).communityOf e = some i := by
  rw [cluster_eq h hpos, inPart_append, (attached_attachedTo h llmGraph hpos).consistent e i]
  constructor
  · intro hpart
    obtain hpart | ⟨-, hpart⟩ := hpart
    · exact hpart
    · have hrest := ((parts_rest h hpos).mem_iff e).mpr (exists_inPart.mp ⟨_, hpart⟩)
      exact absurd (Finset.mem_filter.mp hrest).2 he
  · exact Or.inl

theorem parts_cluster (h : ReturnsParts louvainCommunities)
    (hpos : ∀ pair ∈ cooccurrence, 0 < pair.2) :
    Parts (cluster louvainCommunities llmGraph cooccurrence)
      (llmGraph.nodes ∪ entitiesOf cooccurrence) := by
  have hlouvain := parts_louvain h llmGraph
  have hnonempty : ∀ i < (louvain louvainCommunities llmGraph).length, ∃ e,
      (Assignment.start (louvain louvainCommunities llmGraph)).communityOf e = some i := by
    intro i hi
    obtain ⟨e, he⟩ := hlouvain.nonempty _ (List.getElem_mem hi)
    exact ⟨e, (start_consistent hlouvain.disjoint e i).mpr
      ⟨_, List.getElem?_eq_getElem hi, he⟩⟩
  have hplaced := (attached_attachedTo h llmGraph hpos).parts hnonempty
  have hdisjoint : Disjoint ((llmGraph.nodes ∪ entitiesOf cooccurrence).filter fun e =>
      (attachedTo louvainCommunities llmGraph cooccurrence).communityOf e ≠ none)
      (unreached llmGraph cooccurrence) := by
    apply Finset.disjoint_left.mpr
    intro e he hrest
    exact (Finset.mem_filter.mp he).2
      ((communityOf_eq_none_iff h hpos).mpr (Finset.mem_filter.mp hrest).2)
  have hunion : llmGraph.nodes ∪ entitiesOf cooccurrence =
      ((llmGraph.nodes ∪ entitiesOf cooccurrence).filter fun e =>
        (attachedTo louvainCommunities llmGraph cooccurrence).communityOf e ≠ none) ∪
      unreached llmGraph cooccurrence := by
    ext e
    simp only [Finset.mem_union, Finset.mem_filter, unreached, ne_eq,
      communityOf_eq_none_iff h hpos]
    have hnode : e ∈ llmGraph.nodes → llmDistance llmGraph cooccurrence e ≠ ⊤ := by
      intro he htop
      have hzero : llmDistance llmGraph cooccurrence e = 0 := distFrom_eq_zero_iff.mpr he
      rw [hzero] at htop
      exact absurd htop (by simp)
    tauto
  rw [hunion, cluster_eq h hpos]
  exact hplaced.append (parts_rest h hpos) hdisjoint

theorem exists_inPart_cluster (h : ReturnsParts louvainCommunities)
    (hpos : ∀ pair ∈ cooccurrence, 0 < pair.2) :
    (∃ i < (louvain louvainCommunities llmGraph).length,
      InPart (cluster louvainCommunities llmGraph cooccurrence) i e) ↔
        llmDistance llmGraph cooccurrence e ≠ ⊤ := by
  have hattached := attached_attachedTo h llmGraph hpos
  constructor
  · intro ⟨i, hi, hpart⟩
    rw [cluster_eq h hpos, inPart_append, hattached.length] at hpart
    obtain hpart | ⟨hle, -⟩ := hpart
    · apply (hattached.placed_iff e).mp
      rw [(hattached.consistent e i).mpr hpart]
      exact Option.some_ne_none i
    · exact absurd hi (Nat.not_lt.mpr hle)
  · intro hnear
    obtain ⟨i, hi⟩ := Option.ne_none_iff_exists'.mp ((hattached.placed_iff e).mpr hnear)
    have hlt := ((hattached.consistent e i).mp hi).lt_length
    exact ⟨i, hattached.length ▸ hlt, (inPart_cluster_iff h hpos hnear i).mpr hi⟩

theorem cluster_spec (h : ReturnsParts louvainCommunities)
    (hpos : ∀ pair ∈ cooccurrence, 0 < pair.2) :
    ClusterSpec louvainCommunities llmGraph cooccurrence
      (cluster louvainCommunities llmGraph cooccurrence) := by
  have hparts := parts_louvain h llmGraph
  have hattached := attached_attachedTo h llmGraph hpos
  obtain ⟨k, hk⟩ := hattached.upTo
  constructor
  · exact parts_cluster h hpos
  · intro i e he
    rw [cluster_eq h hpos, inPart_append]
    apply Or.inl
    apply (hattached.consistent e i).mp
    exact hk.kept e i ((start_consistent hparts.disjoint e i).mpr he)
  · intro e _
    rw [exists_inPart_cluster h hpos]
    exact distFrom_ne_top_iff
  · intro e d hd hdist
    have hnear : llmDistance llmGraph cooccurrence e ≠ ⊤ := by
      rw [hdist]
      exact ENat.natCast_ne_top d
    obtain ⟨i, hlt, hi⟩ := (exists_inPart_cluster h hpos).mpr hnear
    refine ⟨i, hlt, hi, fun j => ?_⟩
    have hplaced := (inPart_cluster_iff h hpos hnear i).mp hi
    have hnearer : ∀ i x, llmDistance llmGraph cooccurrence x < d ∧
        InPart (cluster louvainCommunities llmGraph cooccurrence) i x ↔
          distFrom (edgeGraph cooccurrence) {e | e ∈ llmGraph.nodes} x < d ∧
            (attachedTo louvainCommunities llmGraph cooccurrence).communityOf x = some i := by
      intro i x
      apply and_congr_right
      intro hx
      have hxnear : llmDistance llmGraph cooccurrence x ≠ ⊤ := ne_top_of_lt hx
      exact inPart_cluster_iff h hpos hxnear i
    exact hk.largest hd hdist hplaced hnearer j
  · intro cooccurrence' hperm
    have hsame : attachedTo louvainCommunities llmGraph cooccurrence' =
        attachedTo louvainCommunities llmGraph cooccurrence := attach_perm hperm _
    obtain ⟨rest, hrest⟩ := exists_cluster_eq louvainCommunities llmGraph cooccurrence
    obtain ⟨rest', hrest'⟩ := exists_cluster_eq louvainCommunities llmGraph cooccurrence'
    rw [hrest, hrest', hsame, List.take_left' hattached.length, List.take_left' hattached.length]
  · rw [cluster_eq h hpos, List.drop_left' hattached.length]
  · rw [cluster_eq h hpos, List.drop_left' hattached.length]
    exact parts_rest h hpos

end Correct

namespace Tables

/-- `build_networkx_graph`: one edge for each pair of entities, in order. -/
def buildNetworkxGraph (t : Tables) : NxGraph where
  added := []
  edges := (orderBy (t.relationships.rows.image fun r =>
    toLex (min r.sourceId r.targetId, max r.sourceId r.targetId))).map fun k =>
      (ofLex k, ∑ r ∈ t.relationships.rows.filter fun r =>
        (min r.sourceId r.targetId, max r.sourceId r.targetId) = ofLex k, r.weight)

/-- The links of two entities to one chunk, the smaller entity first. -/
def linkPairs (t : Tables) : Finset (LinkRow × LinkRow) :=
  (t.chunkEntities.rows ×ˢ t.chunkEntities.rows).filter fun p =>
    p.2.chunkId = p.1.chunkId ∧ p.1.entityId < p.2.entityId

/-- The number of links of a chunk. -/
def linkCount (t : Tables) (chunkId : Text) : ℕ :=
  (t.chunkEntities.select fun l => l.chunkId = chunkId).card

/-- `_cooccurrence_weights`, with `_COOCCURRENCE_WEIGHT` as one half. -/
def cooccurrenceWeights (t : Tables) : Cooccurrence :=
  (orderBy (t.linkPairs.image fun p => toLex (p.1.entityId, p.2.entityId))).map fun k =>
    (ofLex k, ∑ p ∈ t.linkPairs.filter fun p => (p.1.entityId, p.2.entityId) = ofLex k,
      (1 / 2 : ℚ) / ((t.linkCount p.1.chunkId : ℚ) - 1))

variable {t : Tables} {id : Text}

theorem min_or_max_eq_iff {α : Type*} [LinearOrder α] {a b c : α} :
    min a b = c ∨ max a b = c ↔ a = c ∨ b = c := by
  obtain hle | hle := le_total a b
  · rw [min_eq_left hle, max_eq_right hle]
  · rw [min_eq_right hle, max_eq_left hle, or_comm]

theorem mem_nodes_buildNetworkxGraph : id ∈ t.buildNetworkxGraph.nodes ↔
    ∃ r ∈ t.relationships, r.sourceId = id ∨ r.targetId = id := by
  rw [NxGraph.nodes, buildNetworkxGraph, List.toFinset_nil, Finset.empty_union, mem_entitiesOf]
  simp only [List.mem_map, mem_orderBy, Finset.mem_image]
  constructor
  · intro h
    obtain ⟨pair, ⟨k, ⟨r, hr, hk⟩, hpair⟩, hend⟩ := h
    subst hpair hk
    exact ⟨r, hr, min_or_max_eq_iff.mp hend⟩
  · intro h
    obtain ⟨r, hr, hend⟩ := h
    exact ⟨_, ⟨_, ⟨r, hr, rfl⟩, rfl⟩, min_or_max_eq_iff.mpr hend⟩

theorem mem_linkPairs {p : LinkRow × LinkRow} : p ∈ t.linkPairs ↔ p.1 ∈ t.chunkEntities ∧
    p.2 ∈ t.chunkEntities ∧ p.2.chunkId = p.1.chunkId ∧ p.1.entityId < p.2.entityId := by
  rw [linkPairs, Finset.mem_filter, Finset.mem_product, and_assoc]
  rfl

theorem mem_entitiesOf_cooccurrenceWeights : id ∈ entitiesOf t.cooccurrenceWeights ↔
    ∃ l ∈ t.chunkEntities, l.entityId = id ∧
      ∃ l' ∈ t.chunkEntities, l'.chunkId = l.chunkId ∧ l'.entityId ≠ id := by
  rw [mem_entitiesOf, cooccurrenceWeights]
  simp only [List.mem_map, mem_orderBy, Finset.mem_image]
  constructor
  · intro h
    obtain ⟨pair, ⟨k, ⟨p, hp, hk⟩, hpair⟩, hend⟩ := h
    subst hpair hk
    obtain ⟨hfirst, hsecond, hchunk, hlt⟩ := mem_linkPairs.mp hp
    obtain rfl | rfl := hend
    · exact ⟨p.1, hfirst, rfl, p.2, hsecond, hchunk, hlt.ne'⟩
    · exact ⟨p.2, hsecond, rfl, p.1, hfirst, hchunk.symm, hlt.ne⟩
  · intro h
    obtain ⟨l, hl, hid, l', hl', hchunk, hne⟩ := h
    subst hid
    obtain hlt | hlt := lt_or_gt_of_ne hne
    · have hp : (l', l) ∈ t.linkPairs := mem_linkPairs.mpr ⟨hl', hl, hchunk.symm, hlt⟩
      exact ⟨_, ⟨_, ⟨_, hp, rfl⟩, rfl⟩, Or.inr rfl⟩
    · have hp : (l, l') ∈ t.linkPairs := mem_linkPairs.mpr ⟨hl, hl', hchunk, hlt⟩
      exact ⟨_, ⟨_, ⟨_, hp, rfl⟩, rfl⟩, Or.inl rfl⟩

/-- The links of a pair are two of the chunk's. -/
theorem one_lt_linkCount {p : LinkRow × LinkRow} (hp : p ∈ t.linkPairs) :
    1 < t.linkCount p.1.chunkId := by
  obtain ⟨hfirst, hsecond, hchunk, hlt⟩ := mem_linkPairs.mp hp
  apply Finset.one_lt_card.mpr
  refine ⟨p.1, Finset.mem_filter.mpr ⟨hfirst, rfl⟩, p.2,
    Finset.mem_filter.mpr ⟨hsecond, hchunk⟩, ?_⟩
  exact fun heq => hlt.ne (congrArg LinkRow.entityId heq)

theorem cooccurrenceWeights_pos : ∀ pair ∈ t.cooccurrenceWeights, 0 < pair.2 := by
  intro pair hpair
  obtain ⟨k, hk, rfl⟩ := List.mem_map.mp hpair
  obtain ⟨p, hp, rfl⟩ := Finset.mem_image.mp (mem_orderBy.mp hk)
  apply Finset.sum_pos
  · intro q hq
    have hcount := one_lt_linkCount (Finset.mem_filter.mp hq).1
    have hcast : (1 : ℚ) < t.linkCount q.1.chunkId := Nat.one_lt_cast.mpr hcount
    have hhalf : (0 : ℚ) < 1 / 2 := one_half_pos
    exact div_pos hhalf (sub_pos.mpr hcast)
  · exact ⟨p, Finset.mem_filter.mpr ⟨hp, rfl⟩⟩

end Tables

section Detection
variable {t : Tables} {e : EntityRow}

/-- An entity has the community of one of its assignments, or the one it had without any. -/
theorem community_assignCommunities {assignments : List (ℕ × Text)}
    (he : e ∈ (t.assignCommunities assignments).entities) :
    (∃ i, (i, e.id) ∈ assignments ∧ e.community = some i) ∨
      (∀ a ∈ assignments, a.2 ≠ e.id) ∧
        ∃ x ∈ t.entities, x.id = e.id ∧ x.community = e.community := by
  induction assignments generalizing t with
  | nil => exact Or.inr ⟨by simp, e, he, rfl, rfl⟩
  | cons a assignments ih =>
      obtain ⟨i, hi, hcommunity⟩ | ⟨hnone, x, hx, hid, hcommunity⟩ :=
        ih (t := t.assignCommunities [a]) he
      · exact Or.inl ⟨i, List.mem_cons_of_mem a hi, hcommunity⟩
      · obtain ⟨y, hy, rfl⟩ :=
          (Table.mem_updateWhere t.entities _ _ (fun _ => by rfl) x).mp hx
        split_ifs at hid hcommunity with ha
        · have hassigned : a = (a.1, e.id) := Prod.ext rfl (ha.symm.trans hid)
          exact Or.inl ⟨a.1, hassigned ▸ List.mem_cons_self, hcommunity.symm⟩
        · refine Or.inr ⟨?_, y, hy, hid, hcommunity⟩
          intro b hb
          obtain rfl | hb := List.mem_cons.mp hb
          · exact fun heq => ha (hid.trans heq.symm)
          · exact hnone b hb

theorem mem_communityAssignments {communities : List (List Text)} {i : ℕ} {id : Text} :
    (i, id) ∈ GraphStore.communityAssignments communities ↔
      ∃ members, communities[i]? = some members ∧ id ∈ members := by
  simp only [GraphStore.communityAssignments, List.mem_flatMap, List.mem_map, Prod.mk.injEq]
  constructor
  · intro h
    obtain ⟨c, hc, x, hx, hi, hid⟩ := h
    subst hi hid
    exact ⟨c.1, List.mem_zipIdx_iff_getElem?.mp hc, hx⟩
  · intro h
    obtain ⟨members, hmembers, hid⟩ := h
    exact ⟨(members, i), List.mem_zipIdx_iff_getElem?.mpr hmembers, id, hid, rfl, rfl⟩

/-- `detect_communities` assigns the index of the part that an entity is in. -/
theorem community_detected {parts : List (Finset Text)} (hdisjoint : parts.Pairwise Disjoint)
    (he : e ∈ (detected (parts.map orderBy) t).entities) (i : ℕ) :
    e.community = some i ↔ InPart parts i e.id := by
  have hassigned : ∀ j, (j, e.id) ∈ GraphStore.communityAssignments (parts.map orderBy) ↔
      InPart parts j e.id := by
    intro j
    rw [mem_communityAssignments, List.getElem?_map, InPart]
    simp
  obtain ⟨j, hj, hcommunity⟩ | ⟨hnone, x, hx, -, hcommunity⟩ := community_assignCommunities he
  · rw [hcommunity, Option.some.injEq]
    constructor
    · exact fun hij => hij ▸ (hassigned j).mp hj
    · exact fun hi => InPart.unique hdisjoint ((hassigned j).mp hj) hi
  · obtain ⟨y, -, rfl⟩ := (Table.mem_updateWhere t.entities _ _ (fun _ => by rfl) x).mp hx
    rw [← hcommunity, if_pos trivial]
    constructor
    · exact fun hsome => absurd hsome (by simp)
    · exact fun hi => absurd rfl (hnone _ ((hassigned i).mpr hi))

/-- An entity without its community. -/
def withoutCommunity (e : EntityRow) : EntityRow := { e with community := none }

/-- Only the communities of the entities differ. -/
structure SameButCommunities (t t' : Tables) : Prop where
  entities : t'.entities.rows.image withoutCommunity = t.entities.rows.image withoutCommunity
  others : t' = { t with entities := t'.entities }

theorem sameButCommunities_clear : SameButCommunities t t.clearCommunities :=
  ⟨Table.image_updateWhere t.entities (fun _ => True) withoutCommunity (fun _ => rfl)
    withoutCommunity fun _ => rfl, rfl⟩

theorem sameButCommunities_assign (assignments : List (ℕ × Text)) :
    SameButCommunities t (t.assignCommunities assignments) := by
  induction assignments generalizing t with
  | nil => exact ⟨rfl, rfl⟩
  | cons a assignments ih =>
      refine ⟨(ih (t := t.assignCommunities [a])).entities.trans ?_, rfl⟩
      exact Table.image_updateWhere t.entities (fun e => e.id = a.2)
        (fun e => { e with community := some a.1 }) (fun _ => rfl) withoutCommunity fun _ => rfl

theorem sameButCommunities_detected (communities : List (List Text)) :
    SameButCommunities t (detected communities t) :=
  ⟨(sameButCommunities_assign _).entities.trans sameButCommunities_clear.entities, rfl⟩

end Detection

/-- `detect_communities` on a store that nothing else writes meanwhile. -/
def GraphStore.detectClusters (louvainCommunities : NxGraph → List (Finset Text))
    (s : GraphStore) : Except StoreError GraphStore :=
  s.detectCommunities
    ((cluster louvainCommunities s.buildNetworkxGraph s.cooccurrenceWeights).map orderBy)

/-- The clustering is a correct partition, and detection changes no more than the communities
of the entities, and gives one to those of relationships and to those that share a chunk. -/
theorem cluster_partition {louvainCommunities : NxGraph → List (Finset Text)}
    (h : ReturnsParts louvainCommunities) :
    (∀ llmGraph cooccurrence, (∀ pair ∈ cooccurrence, 0 < pair.2) →
      ClusterSpec louvainCommunities llmGraph cooccurrence
        (cluster louvainCommunities llmGraph cooccurrence)) ∧
    ∀ s : GraphStore, ∃ s', s.detectClusters louvainCommunities = .ok s' ∧
      SameButCommunities s.toTables s'.toTables ∧ ∀ e ∈ s'.entities,
        (∀ i, e.community = some i ↔ InPart
          (cluster louvainCommunities s.buildNetworkxGraph s.cooccurrenceWeights) i e.id) ∧
        (e.community ≠ none ↔
          (∃ r ∈ s.relationships, r.sourceId = e.id ∨ r.targetId = e.id) ∨
            ∃ l ∈ s.chunkEntities, l.entityId = e.id ∧
              ∃ l' ∈ s.chunkEntities, l'.chunkId = l.chunkId ∧ l'.entityId ≠ e.id) := by
  refine ⟨fun llmGraph cooccurrence hpos => cluster_spec h hpos, fun s => ?_⟩
  have hparts : Parts (cluster louvainCommunities s.buildNetworkxGraph s.cooccurrenceWeights)
      (s.buildNetworkxGraph.nodes ∪ entitiesOf s.cooccurrenceWeights) :=
    parts_cluster h s.cooccurrenceWeights_pos
  obtain ⟨s', hs', htables⟩ := detectCommunities_ok
    ((cluster louvainCommunities s.buildNetworkxGraph s.cooccurrenceWeights).map orderBy) s
  refine ⟨s', hs', htables ▸ sameButCommunities_detected _, fun e he => ?_⟩
  rw [htables] at he
  have hcommunity := community_detected hparts.disjoint he
  refine ⟨hcommunity, ?_⟩
  rw [Option.ne_none_iff_exists']
  simp only [hcommunity, exists_inPart, ← hparts.mem_iff, Finset.mem_union,
    Tables.mem_nodes_buildNetworkxGraph, Tables.mem_entitiesOf_cooccurrenceWeights]

/-- Everything in one community. -/
def oneCommunity (graph : NxGraph) : List (Finset Text) := [graph.nodes]

theorem returnsParts_oneCommunity : ReturnsParts oneCommunity := by
  intro graph hnodes
  constructor
  · simpa [oneCommunity] using hnodes
  · exact List.pairwise_singleton _ _
  · simp [oneCommunity]

/-- An entity that shares a chunk with one of two related ones. -/
theorem cluster_partition_attached :
    Parts (cluster oneCommunity ⟨[], [((text "a", text "b"), 1)]⟩ [((text "a", text "x"), 1 / 2)])
      (NxGraph.nodes ⟨[], [((text "a", text "b"), 1)]⟩ ∪
        entitiesOf [((text "a", text "x"), 1 / 2)]) :=
  ((cluster_partition returnsParts_oneCommunity).1 _ _ (by simp)).parts

end LocalGraphRag.Graph
