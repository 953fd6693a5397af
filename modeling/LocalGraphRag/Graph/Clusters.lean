import LocalGraphRag.Networks.Attachment
import LocalGraphRag.Python.Text
import LocalGraphRag.Relational.Table
import LocalGraphRag.Sequences.Parts
import LocalGraphRag.Sequences.RoundRobin

/-!
# Clustering the entities

The communities of the relationship graph, and the attachment of the entities that only
share chunks. The clustering of a graph comes from a library.

## Implementation notes

The library's communities are a parameter. The dictionary from entities to communities is a
function. An affinity is kept as the list of what is added to it; a community's score is the
sum of what was added for it, with exact weights.
-/

namespace LocalGraphRag.Graph

open Python Relational Sequences Networks

/-- Entity pairs with the weight of their co-occurrence, in the order of iteration. -/
abbrev Cooccurrence := List ((Text × Text) × ℚ)

/-- The entities of some weighted pairs. -/
def entitiesOf (pairs : Cooccurrence) : Finset Text :=
  (pairs.flatMap fun e => [e.1.1, e.1.2]).toFinset

/-- An `nx.Graph`: the nodes added by themselves and the weighted edges, as they were added. -/
structure NxGraph where
  added : List Text
  edges : Cooccurrence

def NxGraph.nodes (graph : NxGraph) : Finset Text :=
  graph.added.toFinset ∪ entitiesOf graph.edges

section Cluster
variable (louvainCommunities : NxGraph → List (Finset Text))

/-- `_louvain`: the communities by their smallest member. -/
def louvain (graph : NxGraph) : List (Finset Text) :=
  if graph.nodes.card = 0 then []
  else (louvainCommunities graph).insertionSort fun a b => a.min ≤ b.min

/-- The communities of `_cluster` and the dictionary `community_of`. -/
structure Assignment where
  communities : List (Finset Text)
  communityOf : Text → Option ℕ

namespace Assignment

/-- The entities of each community, with its index; a later community overrides. -/
def start (communities : List (Finset Text)) : Assignment where
  communities := communities
  communityOf := fun entity =>
    ((communities.zipIdx.filter fun c => entity ∈ c.1).getLast?).map Prod.snd

/-- `communities[best].add(entity)` and `community_of[entity] = best`. -/
def place (entity : Text) (best : ℕ) (s : Assignment) : Assignment where
  communities := s.communities.modify best (insert entity)
  communityOf := Function.update s.communityOf entity (some best)

end Assignment

/-- What a pair adds to `affinity`, where one end has a community: entity, community and
weight. -/
def addedBy (communityOf : Text → Option ℕ) (e : (Text × Text) × ℚ) : Option (Text × ℕ × ℚ) :=
  match communityOf e.1.1, communityOf e.1.2 with
  | some community, none => some (e.1.2, community, e.2)
  | none, some community => some (e.1.1, community, e.2)
  | _, _ => none

def affinities (cooccurrence : Cooccurrence) (communityOf : Text → Option ℕ) :
    List (Text × ℕ × ℚ) :=
  cooccurrence.filterMap (addedBy communityOf)

/-- `affinity[entity][community]`. -/
def score (affinity : List (Text × ℕ × ℚ)) (entity : Text) (community : ℕ) : ℚ :=
  ((affinity.filter fun a => a.1 = entity ∧ a.2.1 = community).map fun a => a.2.2).sum

/-- The community with the largest score, ties to the lowest. -/
def bestCommunity (affinity : List (Text × ℕ × ℚ)) (entity : Text) : Option ℕ :=
  (fetchOne ((affinity.filter fun a => a.1 = entity).map fun a =>
    toLex (-score affinity entity a.2.1, a.2.1)).toFinset).map fun k => (ofLex k).2

/-- The placement of an entity of `affinity`, which always has a best community. -/
def placeBest (affinity : List (Text × ℕ × ℚ)) (s : Assignment) (entity : Text) : Assignment :=
  match bestCommunity affinity entity with
  | some best => s.place entity best
  | none => s

/-- One round of the loop. -/
def attachRound (cooccurrence : Cooccurrence) (s : Assignment) : Assignment :=
  let affinity := affinities cooccurrence s.communityOf
  (distinct (affinity.map Prod.fst)).foldl (placeBest affinity) s

end Cluster

section Round
variable {cooccurrence : Cooccurrence} {f : Text → Option ℕ} {s : Assignment} {entity u v : Text}
variable {i j : ℕ} {w : ℚ}

theorem addedBy_eq_some_iff {e : (Text × Text) × ℚ} : addedBy f e = some (v, i, w) ↔
    e.2 = w ∧ f v = none ∧ LinksTo v (fun x => f x = some i) e := by
  simp only [addedBy, LinksTo]
  constructor
  · intro hadded
    split at hadded
    · rename_i community hfirst hsecond
      obtain ⟨rfl, rfl, rfl⟩ := by simpa using hadded
      exact ⟨rfl, hsecond, Or.inr ⟨rfl, hfirst⟩⟩
    · rename_i community hfirst hsecond
      obtain ⟨rfl, rfl, rfl⟩ := by simpa using hadded
      exact ⟨rfl, hfirst, Or.inl ⟨rfl, hsecond⟩⟩
    · simp at hadded
  · intro ⟨hw, hnone, hlinks⟩
    obtain ⟨rfl, hsome⟩ | ⟨rfl, hsome⟩ := hlinks
    · rw [hnone, hsome, hw]
    · rw [hnone, hsome, hw]

/-- An affinity comes from a pair with one end in a community. -/
theorem mem_affinities : (v, i, w) ∈ affinities cooccurrence f ↔
    ∃ e ∈ cooccurrence, e.2 = w ∧ f v = none ∧ LinksTo v (fun x => f x = some i) e := by
  simp only [affinities, List.mem_filterMap, addedBy_eq_some_iff]

/-- The score is the weight of the pairs with the community. -/
theorem score_affinities (hv : f v = none) (i : ℕ) :
    score (affinities cooccurrence f) v i = weightTo cooccurrence v fun x => f x = some i := by
  have hadded : ∀ e, (((addedBy f e).filter fun a => a.1 = v ∧ a.2.1 = i).map fun a => a.2.2) =
      if LinksTo v (fun x => f x = some i) e then some e.2 else none := by
    intro e
    ext w
    simp only [Option.map_eq_some_iff, Option.filter_eq_some_iff, decide_eq_true_eq,
      Option.ite_none_right_eq_some, Option.some.injEq]
    constructor
    · intro ⟨a, ⟨hadded, hv', hi⟩, hw⟩
      obtain ⟨x, j, y⟩ := a
      subst hv' hi hw
      obtain ⟨hweight, -, hlinks⟩ := addedBy_eq_some_iff.mp hadded
      exact ⟨hlinks, hweight⟩
    · intro ⟨hlinks, hw⟩
      exact ⟨(v, i, w), ⟨addedBy_eq_some_iff.mpr ⟨hw, hv, hlinks⟩, rfl, rfl⟩, rfl⟩
  rw [score, weightTo, affinities, List.filter_filterMap, List.map_filterMap,
    ← List.filterMap_eq_map', List.filterMap_filter]
  simp only [hadded, decide_eq_true_eq]

/-- What a vertex may join are the communities that a pair links it to. -/
theorem mem_candidates (hv : f v = none) {k : ℚ ×ₗ ℕ} :
    k ∈ (((affinities cooccurrence f).filter fun a => a.1 = v).map fun a =>
      toLex (-score (affinities cooccurrence f) v a.2.1, a.2.1)).toFinset ↔
    ∃ j, (∃ e ∈ cooccurrence, LinksTo v (fun x => f x = some j) e) ∧
      strength cooccurrence v (fun j x => f x = some j) j = k := by
  simp only [List.mem_toFinset, List.mem_map, List.mem_filter, decide_eq_true_eq]
  constructor
  · intro h
    obtain ⟨⟨x, j, w⟩, ⟨hadded, hx⟩, hk⟩ := h
    subst hx
    obtain ⟨e, he, -, -, hlinks⟩ := mem_affinities.mp hadded
    refine ⟨j, ⟨e, he, hlinks⟩, ?_⟩
    rw [strength, ← score_affinities hv]
    exact hk
  · intro h
    obtain ⟨j, ⟨e, he, hlinks⟩, hk⟩ := h
    refine ⟨(v, j, e.2), ⟨mem_affinities.mpr ⟨e, he, rfl, hv, hlinks⟩, rfl⟩, ?_⟩
    rw [score_affinities hv]
    exact hk

theorem bestCommunity_eq_some_iff (hv : f v = none) :
    bestCommunity (affinities cooccurrence f) v = some i ↔
      (∃ e ∈ cooccurrence, LinksTo v (fun x => f x = some i) e) ∧
      ∀ j, (∃ e ∈ cooccurrence, LinksTo v (fun x => f x = some j) e) →
        strength cooccurrence v (fun j x => f x = some j) i ≤
          strength cooccurrence v (fun j x => f x = some j) j := by
  rw [bestCommunity, Option.map_eq_some_iff]
  constructor
  · intro ⟨k, hk, hi⟩
    obtain ⟨hmem, hleast⟩ := fetchOne_eq_some_iff.mp hk
    obtain ⟨j, hlinked, rfl⟩ := (mem_candidates hv).mp hmem
    obtain rfl : j = i := hi
    exact ⟨hlinked, fun j' hj' => hleast _ ((mem_candidates hv).mpr ⟨j', hj', rfl⟩)⟩
  · intro ⟨hlinked, hleast⟩
    refine ⟨strength cooccurrence v (fun j x => f x = some j) i,
      fetchOne_eq_some_iff.mpr ⟨(mem_candidates hv).mpr ⟨i, hlinked, rfl⟩, ?_⟩, rfl⟩
    intro k hk
    obtain ⟨j, hj, rfl⟩ := (mem_candidates hv).mp hk
    exact hleast j hj

theorem bestCommunity_ne_none
    (h : ∃ i, ∃ e ∈ cooccurrence, f v = none ∧ LinksTo v (fun x => f x = some i) e) :
    bestCommunity (affinities cooccurrence f) v ≠ none := by
  obtain ⟨i, e, he, hv, hlinks⟩ := h
  intro hnone
  rw [bestCommunity, Option.map_eq_none_iff, fetchOne_eq_none_iff] at hnone
  have hmem := (mem_candidates hv).mpr ⟨i, ⟨e, he, hlinks⟩, rfl⟩
  rw [hnone] at hmem
  exact Finset.notMem_empty _ hmem

/-- The entities of a round: those without a community that a pair links to one. -/
theorem mem_keys_affinities : v ∈ (affinities cooccurrence f).map Prod.fst ↔
    f v = none ∧ ∃ i, ∃ e ∈ cooccurrence, LinksTo v (fun x => f x = some i) e := by
  rw [List.mem_map]
  constructor
  · intro ⟨⟨x, i, w⟩, hadded, hx⟩
    subst hx
    obtain ⟨e, he, -, hnone, hlinks⟩ := mem_affinities.mp hadded
    exact ⟨hnone, i, e, he, hlinks⟩
  · intro ⟨hnone, i, e, he, hlinks⟩
    exact ⟨(v, i, e.2), mem_affinities.mpr ⟨e, he, rfl, hnone, hlinks⟩, rfl⟩

end Round

section Placement
variable {affinity : List (Text × ℕ × ℚ)} {entities : List Text} {s : Assignment}
variable {entity e : Text} {i : ℕ}

theorem communityOf_placeBest : (placeBest affinity s entity).communityOf e =
    if e = entity then (bestCommunity affinity e).or (s.communityOf e) else s.communityOf e := by
  rw [placeBest]
  split_ifs with he
  · subst he
    cases bestCommunity affinity e with
    | none => rfl
    | some best => simp [Assignment.place]
  · cases bestCommunity affinity entity with
    | none => rfl
    | some best => simp [Assignment.place, he]

theorem length_placeBest :
    (placeBest affinity s entity).communities.length = s.communities.length := by
  rw [placeBest]
  cases bestCommunity affinity entity with
  | none => rfl
  | some best => exact List.length_modify _ _ _

theorem inPart_placeBest : InPart (placeBest affinity s entity).communities i e ↔
    InPart s.communities i e ∨
      e = entity ∧ bestCommunity affinity e = some i ∧ i < s.communities.length := by
  rw [placeBest]
  cases hbest : bestCommunity affinity entity with
  | none =>
      constructor
      · exact Or.inl
      · intro h
        obtain h | ⟨rfl, hsome, -⟩ := h
        · exact h
        · rw [hbest] at hsome
          exact absurd hsome (by simp)
  | some best =>
      apply inPart_modify_insert.trans
      apply or_congr_right
      constructor
      · intro ⟨hi, he, hlt⟩
        subst hi he
        exact ⟨rfl, hbest, hlt⟩
      · intro ⟨he, hsome, hlt⟩
        subst he
        obtain rfl : best = i := Option.some.inj (hbest.symm.trans hsome)
        exact ⟨rfl, rfl, hlt⟩

theorem communityOf_foldl : (entities.foldl (placeBest affinity) s).communityOf e =
    if e ∈ entities then (bestCommunity affinity e).or (s.communityOf e)
    else s.communityOf e := by
  induction entities generalizing s with
  | nil => rfl
  | cons entity entities ih =>
      rw [List.foldl_cons, ih, communityOf_placeBest]
      by_cases he : e = entity
      · subst he
        cases bestCommunity affinity e <;> simp
      · simp [he]

theorem length_foldl : (entities.foldl (placeBest affinity) s).communities.length =
    s.communities.length := by
  induction entities generalizing s with
  | nil => rfl
  | cons entity entities ih => rw [List.foldl_cons, ih, length_placeBest]

theorem inPart_foldl : InPart (entities.foldl (placeBest affinity) s).communities i e ↔
    InPart s.communities i e ∨
      e ∈ entities ∧ bestCommunity affinity e = some i ∧ i < s.communities.length := by
  induction entities generalizing s with
  | nil => simp
  | cons entity entities ih =>
      rw [List.foldl_cons, ih, inPart_placeBest, length_placeBest, List.mem_cons, or_assoc,
        ← or_and_right]

end Placement

section Rounds
variable {cooccurrence : Cooccurrence} {s : Assignment} {v : Text}

/-- The dictionary agrees with the sets. -/
def Assignment.Consistent (s : Assignment) : Prop :=
  ∀ e i, s.communityOf e = some i ↔ InPart s.communities i e

theorem communityOf_attachRound (v : Text) : (attachRound cooccurrence s).communityOf v =
    if v ∈ (affinities cooccurrence s.communityOf).map Prod.fst
    then bestCommunity (affinities cooccurrence s.communityOf) v else s.communityOf v := by
  rw [attachRound, communityOf_foldl]
  simp only [mem_distinct]
  split_ifs with hv
  · rw [(mem_keys_affinities.mp hv).1, Option.or_none]
  · rfl

theorem best_of_mem_keys (hv : v ∈ (affinities cooccurrence s.communityOf).map Prod.fst) :
    bestCommunity (affinities cooccurrence s.communityOf) v ≠ none := by
  obtain ⟨hnone, i, e, he, hlinks⟩ := mem_keys_affinities.mp hv
  exact bestCommunity_ne_none ⟨i, e, he, hnone, hlinks⟩

/-- Being linked to a community is having a neighbor in one. -/
theorem exists_link_iff {f : Text → Option ℕ} (hv : f v = none) :
    (∃ i, ∃ e ∈ cooccurrence, LinksTo v (fun x => f x = some i) e) ↔
      ∃ u, (edgeGraph cooccurrence).Adj u v ∧ f u ≠ none := by
  have hne : ∀ {u}, f u ≠ none → u ≠ v := fun hu heq => hu (heq ▸ hv)
  constructor
  · intro ⟨i, e, he, hlinks⟩
    obtain ⟨rfl, hi⟩ | ⟨rfl, hi⟩ := hlinks
    · have hsome : f e.1.2 ≠ none := by simp [hi]
      exact ⟨e.1.2, (SimpleGraph.fromRel_adj _ _ _).mpr ⟨hne hsome, Or.inr ⟨e, he, rfl⟩⟩, hsome⟩
    · have hsome : f e.1.1 ≠ none := by simp [hi]
      exact ⟨e.1.1, (SimpleGraph.fromRel_adj _ _ _).mpr ⟨hne hsome, Or.inl ⟨e, he, rfl⟩⟩, hsome⟩
  · intro ⟨u, hadj, hu⟩
    obtain ⟨i, hi⟩ := Option.ne_none_iff_exists'.mp hu
    obtain ⟨-, ⟨e, he, heq⟩ | ⟨e, he, heq⟩⟩ := (SimpleGraph.fromRel_adj _ _ _).mp hadj
    · exact ⟨i, e, he, Or.inr (by simp [heq, hi])⟩
    · exact ⟨i, e, he, Or.inl (by simp [heq, hi])⟩

/-- A round of the loop is a round of attachment. -/
theorem joins_attachRound :
    Joins cooccurrence s.communityOf (attachRound cooccurrence s).communityOf := by
  constructor
  · intro v i hi
    have hv : v ∉ (affinities cooccurrence s.communityOf).map Prod.fst := by
      intro hv
      rw [(mem_keys_affinities.mp hv).1] at hi
      exact absurd hi (by simp)
    rw [communityOf_attachRound, if_neg hv, hi]
  · intro v hnone
    rw [communityOf_attachRound, ← exists_link_iff hnone]
    split_ifs with hv
    · exact ⟨fun _ => (mem_keys_affinities.mp hv).2, fun _ => best_of_mem_keys hv⟩
    · constructor
      · exact fun h => absurd hnone h
      · exact fun hlinked => absurd (mem_keys_affinities.mpr ⟨hnone, hlinked⟩) hv
  · intro v i hnone hi
    rw [communityOf_attachRound] at hi
    split_ifs at hi with hv
    · exact (bestCommunity_eq_some_iff hnone).mp hi
    · rw [hnone] at hi
      exact absurd hi (by simp)

theorem Assignment.Consistent.attachRound (h : s.Consistent) :
    (attachRound cooccurrence s).Consistent := by
  intro v i
  rw [communityOf_attachRound, Graph.attachRound, inPart_foldl]
  simp only [mem_distinct]
  split_ifs with hv
  · have hnone := (mem_keys_affinities.mp hv).1
    have hnot : ¬InPart s.communities i v := by
      rw [← h v i, hnone]
      simp
    constructor
    · intro hbest
      obtain ⟨⟨e, -, hlinks⟩, -⟩ := (bestCommunity_eq_some_iff hnone).mp hbest
      obtain ⟨-, hi⟩ | ⟨-, hi⟩ := hlinks
      · exact Or.inr ⟨hv, hbest, ((h _ i).mp hi).lt_length⟩
      · exact Or.inr ⟨hv, hbest, ((h _ i).mp hi).lt_length⟩
    · intro hpart
      obtain hpart | ⟨-, hbest, -⟩ := hpart
      · exact absurd hpart hnot
      · exact hbest
  · rw [h v i]
    simp [hv]

/-- The entities of the map that have no community yet. -/
def unplaced (cooccurrence : Cooccurrence) (s : Assignment) : Finset Text :=
  (entitiesOf cooccurrence).filter fun e => s.communityOf e = none

/-- A round with an affinity places an entity. -/
theorem unplaced_attachRound_lt (h : affinities cooccurrence s.communityOf ≠ []) :
    (unplaced cooccurrence (attachRound cooccurrence s)).card <
      (unplaced cooccurrence s).card := by
  obtain ⟨⟨v, i, w⟩, hadded⟩ := List.exists_mem_of_ne_nil _ h
  have hkey : v ∈ (affinities cooccurrence s.communityOf).map Prod.fst :=
    List.mem_map.mpr ⟨_, hadded, rfl⟩
  obtain ⟨e, he, -, hnone, hlinks⟩ := mem_affinities.mp hadded
  have hv : v ∈ unplaced cooccurrence s := by
    apply Finset.mem_filter.mpr
    refine ⟨List.mem_toFinset.mpr (List.mem_flatMap.mpr ⟨e, he, ?_⟩), hnone⟩
    obtain ⟨rfl, -⟩ | ⟨rfl, -⟩ := hlinks
    · exact List.mem_cons_self
    · exact List.mem_cons_of_mem _ List.mem_cons_self
  apply Finset.card_lt_card
  refine Finset.ssubset_iff_of_subset ?_ |>.mpr ⟨v, hv, ?_⟩
  · intro x hx
    obtain ⟨hx, hunplaced⟩ := Finset.mem_filter.mp hx
    refine Finset.mem_filter.mpr ⟨hx, ?_⟩
    by_contra hplaced
    obtain ⟨j, hj⟩ := Option.ne_none_iff_exists'.mp hplaced
    rw [joins_attachRound.kept x j hj] at hunplaced
    exact absurd hunplaced (by simp)
  · intro hmem
    have hunplaced := (Finset.mem_filter.mp hmem).2
    rw [communityOf_attachRound, if_pos hkey] at hunplaced
    exact best_of_mem_keys hkey hunplaced

/-- The loop: rounds until no entity has an affinity. -/
def attach (cooccurrence : Cooccurrence) (s : Assignment) : Assignment :=
  if affinities cooccurrence s.communityOf = [] then s
  else attach cooccurrence (attachRound cooccurrence s)
termination_by (unplaced cooccurrence s).card
decreasing_by exact unplaced_attachRound_lt ‹_›

end Rounds

section Order
variable {cooccurrence cooccurrence' : Cooccurrence} {affinity affinity' : List (Text × ℕ × ℚ)}

theorem bestCommunity_perm (h : affinity.Perm affinity') (entity : Text) :
    bestCommunity affinity entity = bestCommunity affinity' entity := by
  have hscore : ∀ community, score affinity entity community = score affinity' entity community :=
    fun community => ((h.filter _).map _).sum_eq
  rw [bestCommunity, bestCommunity]
  simp only [hscore]
  rw [List.toFinset_eq_of_perm _ _ ((h.filter _).map _)]

/-- A round does not depend on the order in which the map is read. -/
theorem attachRound_perm (h : cooccurrence.Perm cooccurrence') (s : Assignment) :
    attachRound cooccurrence s = attachRound cooccurrence' s := by
  have haffinity : (affinities cooccurrence s.communityOf).Perm
      (affinities cooccurrence' s.communityOf) := h.filterMap _
  have hkeys : ∀ e, e ∈ (affinities cooccurrence s.communityOf).map Prod.fst ↔
      e ∈ (affinities cooccurrence' s.communityOf).map Prod.fst :=
    fun e => (haffinity.map _).mem_iff
  have hcommunities : (attachRound cooccurrence s).communities =
      (attachRound cooccurrence' s).communities := by
    apply ext_inPart
    · rw [attachRound, attachRound, length_foldl, length_foldl]
    · intro i e
      rw [attachRound, attachRound, inPart_foldl, inPart_foldl]
      simp only [mem_distinct, hkeys, bestCommunity_perm haffinity]
  have hdictionary : (attachRound cooccurrence s).communityOf =
      (attachRound cooccurrence' s).communityOf := by
    funext e
    rw [communityOf_attachRound, communityOf_attachRound, bestCommunity_perm haffinity]
    simp only [hkeys]
  cases hround : attachRound cooccurrence s
  cases hround' : attachRound cooccurrence' s
  rw [hround, hround'] at hcommunities hdictionary
  rw [Assignment.mk.injEq]
  exact ⟨hcommunities, hdictionary⟩

theorem attach_perm (h : cooccurrence.Perm cooccurrence') (s : Assignment) :
    attach cooccurrence s = attach cooccurrence' s := by
  have hnil : ∀ f, affinities cooccurrence f = [] ↔ affinities cooccurrence' f = [] := by
    intro f
    have haffinity : (affinities cooccurrence f).Perm (affinities cooccurrence' f) :=
      h.filterMap _
    constructor
    · exact fun hempty => (hempty ▸ haffinity).nil_eq.symm
    · exact fun hempty => (hempty ▸ haffinity.symm).nil_eq.symm
  fun_induction attach cooccurrence s with
  | case1 s hdone => rw [attach, if_pos ((hnil _).mp hdone)]
  | case2 s hmore ih =>
      rw [ih, attachRound_perm h]
      conv_rhs => rw [attach, if_neg (mt (hnil _).mpr hmore)]

end Order

section Run
variable {cooccurrence : Cooccurrence} {S : Set Text} {f₀ : Text → Option ℕ} {s : Assignment}
variable {k : ℕ}

/-- What holds when the loop ends. -/
structure Attached (cooccurrence : Cooccurrence) (S : Set Text) (f₀ : Text → Option ℕ) (n : ℕ)
    (s : Assignment) : Prop where
  consistent : s.Consistent
  length : s.communities.length = n
  upTo : ∃ k, AttachedUpTo cooccurrence S f₀ k s.communityOf
  closed : affinities cooccurrence s.communityOf = []

theorem attached_attach (hpos : ∀ e ∈ cooccurrence, 0 < e.2) (hconsistent : s.Consistent)
    (h : AttachedUpTo cooccurrence S f₀ k s.communityOf) :
    Attached cooccurrence S f₀ s.communities.length (attach cooccurrence s) := by
  fun_induction attach cooccurrence s generalizing k with
  | case1 s hdone => exact ⟨hconsistent, rfl, ⟨k, h⟩, hdone⟩
  | case2 s hmore ih =>
      have hnext := ih hconsistent.attachRound (h.round hpos joins_attachRound)
      rwa [attachRound, length_foldl] at hnext

/-- The loop has placed the entities that can be reached, and no others. -/
theorem Attached.placed_iff {n : ℕ} (h : Attached cooccurrence S f₀ n s) (v : Text) :
    s.communityOf v ≠ none ↔ distFrom (edgeGraph cooccurrence) S v ≠ ⊤ := by
  obtain ⟨k, hk⟩ := h.upTo
  apply hk.closed
  intro u v hadj hu hv
  have hkey : v ∈ (affinities cooccurrence s.communityOf).map Prod.fst :=
    mem_keys_affinities.mpr ⟨hv, (exists_link_iff hv).mpr ⟨u, hadj, hu⟩⟩
  rw [h.closed] at hkey
  exact List.not_mem_nil hkey

end Run

section Cluster
variable (louvainCommunities : NxGraph → List (Finset Text))

/-- `_cluster`. -/
def cluster (llmGraph : NxGraph) (cooccurrence : Cooccurrence) : List (Finset Text) :=
  let attached := attach cooccurrence (Assignment.start (louvain louvainCommunities llmGraph))
  let residual := cooccurrence.filter fun e =>
    attached.communityOf e.1.1 = none ∧ attached.communityOf e.1.2 = none
  attached.communities ++ louvain louvainCommunities ⟨[], residual⟩

end Cluster

end LocalGraphRag.Graph
