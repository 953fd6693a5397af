import Mathlib.Combinatorics.SimpleGraph.Metric

/-!
# Distance from a set of vertices

The distance from the nearest vertex of a set, and what a search that goes outward from the
set knows after each round, when the number of vertices it may find is limited.
-/

namespace LocalGraphRag.Networks

variable {V : Type*} (G : SimpleGraph V) (S : Set V)

/-- The length of a shortest walk from `S`, `⊤` where there is none. -/
noncomputable def distFrom (v : V) : ℕ∞ := ⨅ s ∈ S, G.edist s v

variable {G S} {u v : V} {k : ℕ}

theorem distFrom_le_iff : distFrom G S v ≤ k ↔ ∃ s ∈ S, G.edist s v ≤ k := by
  have hlt : ∀ {d : ℕ∞}, d ≤ k ↔ d < k + 1 := (ENat.lt_add_one_iff (ENat.natCast_ne_top k)).symm
  simp only [hlt, distFrom, iInf_lt_iff, exists_prop]

theorem distFrom_eq_zero_iff : distFrom G S v = 0 ↔ v ∈ S := by
  rw [← nonpos_iff_eq_zero, ← Nat.cast_zero, distFrom_le_iff]
  simp

theorem distFrom_le_zero_iff : distFrom G S v ≤ (0 : ℕ) ↔ v ∈ S := by
  rw [Nat.cast_zero, nonpos_iff_eq_zero, distFrom_eq_zero_iff]

theorem distFrom_ne_top_iff : distFrom G S v ≠ ⊤ ↔ ∃ s ∈ S, G.Reachable s v := by
  simp only [distFrom, ne_eq, iInf_eq_top, not_forall, exists_prop]
  simp only [← ne_eq, SimpleGraph.edist_ne_top_iff_reachable]

theorem distFrom_le_succ_of_le (h : distFrom G S v ≤ k) : distFrom G S v ≤ (k + 1 : ℕ) :=
  h.trans (Nat.cast_le.mpr (Nat.le_succ k))

/-- One edge more reaches the neighbors. -/
theorem distFrom_le_succ_of_adj (h : distFrom G S u ≤ k) (hadj : G.Adj u v) :
    distFrom G S v ≤ (k + 1 : ℕ) := by
  obtain ⟨s, hs, hdist⟩ := distFrom_le_iff.mp h
  apply distFrom_le_iff.mpr
  refine ⟨s, hs, ?_⟩
  calc G.edist s v ≤ G.edist s u + G.edist u v := G.edist_triangle
    _ ≤ k + 1 := add_le_add hdist (SimpleGraph.edist_eq_one_iff_adj.mpr hadj).le
    _ = (k + 1 : ℕ) := (Nat.cast_succ k).symm

/-- What one edge more reaches. -/
theorem distFrom_le_succ_iff : distFrom G S v ≤ (k + 1 : ℕ) ↔
    distFrom G S v ≤ k ∨ ∃ u, distFrom G S u ≤ k ∧ G.Adj u v := by
  constructor
  · intro h
    obtain ⟨s, hs, hdist⟩ := distFrom_le_iff.mp h
    by_cases hnear : G.edist s v ≤ k
    · exact Or.inl (distFrom_le_iff.mpr ⟨s, hs, hnear⟩)
    · have heq : G.edist v s = (k + 1 : ℕ) := by
        rw [SimpleGraph.edist_comm]
        apply le_antisymm hdist
        rw [Nat.cast_succ]
        exact Order.add_one_le_of_lt (not_le.mp hnear)
      obtain ⟨walk, hwalk⟩ := SimpleGraph.exists_walk_of_edist_eq_coe heq
      cases walk with
      | nil => simp at hwalk
      | cons hadj walk =>
          rw [SimpleGraph.Walk.length_cons, Nat.add_right_cancel_iff] at hwalk
          refine Or.inr ⟨_, distFrom_le_iff.mpr ⟨s, hs, ?_⟩, hadj.symm⟩
          rw [SimpleGraph.edist_comm, ← hwalk]
          exact SimpleGraph.edist_le walk
  · intro h
    obtain hnear | ⟨u, hu, hadj⟩ := h
    · exact distFrom_le_succ_of_le hnear
    · exact distFrom_le_succ_of_adj hu hadj

theorem distFrom_lt_succ_iff : distFrom G S v < (k + 1 : ℕ) ↔ distFrom G S v ≤ k := by
  rw [Nat.cast_succ, ENat.lt_add_one_iff (ENat.natCast_ne_top k)]

theorem distFrom_le_of_lt_of_adj (h : distFrom G S u < k) (hadj : G.Adj u v) :
    distFrom G S v ≤ k := by
  cases k with
  | zero => exact absurd h not_lt_zero
  | succ k => exact distFrom_le_succ_of_adj (distFrom_lt_succ_iff.mp h) hadj

/-- What is reached is in the set or at the end of an edge. -/
theorem mem_or_adj_of_distFrom_le (h : distFrom G S v ≤ k) : v ∈ S ∨ ∃ u, G.Adj u v := by
  induction k with
  | zero => exact Or.inl (distFrom_le_zero_iff.mp h)
  | succ k ih =>
      obtain hnear | ⟨u, -, hadj⟩ := distFrom_le_succ_iff.mp h
      · exact ih hnear
      · exact Or.inr ⟨u, hadj⟩

section Search
variable {limit : ℕ} {found picked frontier : List V}

variable (G S) in
/-- After `k` rounds: the nearest vertices first, nothing closer left out, and nothing at
distance `k` either unless the limit is reached. -/
structure Explored (limit k : ℕ) (found : List V) : Prop where
  nodup : found.Nodup
  length_le : found.length ≤ limit
  sorted : found.Pairwise fun u v => distFrom G S u ≤ distFrom G S v
  near : ∀ v ∈ found, distFrom G S v ≤ k
  closer : ∀ v, distFrom G S v < k → v ∈ found
  complete : found.length < limit → ∀ v, distFrom G S v ≤ k → v ∈ found

theorem explored_start (hnodup : found.Nodup) (hlen : found.length ≤ limit) :
    Explored G {v | v ∈ found} limit 0 found := by
  have hzero : ∀ v ∈ found, distFrom G {v | v ∈ found} v = 0 := fun v hv =>
    distFrom_eq_zero_iff.mpr hv
  constructor
  · exact hnodup
  · exact hlen
  · apply List.pairwise_of_forall_mem_list
    intro u hu v hv
    rw [hzero u hu, hzero v hv]
  · exact fun v hv => distFrom_le_zero_iff.mpr hv
  · exact fun v hv => absurd hv not_lt_zero
  · intro _ v hv
    have hmem : v ∈ {v | v ∈ found} := distFrom_le_zero_iff.mp hv
    exact hmem

/-- A new neighbor of what was found is one edge farther. -/
theorem Explored.dist_new (h : Explored G S limit k found) (hopen : found.length < limit)
    (hu : distFrom G S u ≤ k) (hadj : G.Adj u v) (hv : v ∉ found) :
    distFrom G S v = (k + 1 : ℕ) := by
  have hfar : ¬distFrom G S v ≤ k := fun hle => hv (h.complete hopen v hle)
  apply le_antisymm (distFrom_le_succ_of_adj hu hadj)
  rw [Nat.cast_succ]
  exact Order.add_one_le_of_lt (not_le.mp hfar)

/-- It is a neighbor of what was found last: an earlier one would have been found by now. -/
theorem Explored.dist_last (h : Explored G S limit k found) (hopen : found.length < limit)
    (hu : distFrom G S u ≤ k) (hadj : G.Adj u v) (hv : v ∉ found) : distFrom G S u = k := by
  apply le_antisymm hu
  by_contra hclose
  have hnear := distFrom_le_of_lt_of_adj (not_le.mp hclose) hadj
  exact hv (h.complete hopen v hnear)

/-- One round adds new neighbors of what was found last: all of them, or as many as the
limit allows. -/
theorem Explored.round (h : Explored G S limit k found) (hopen : found.length < limit)
    (hfrontier : ∀ v, v ∈ frontier ↔ v ∈ found ∧ distFrom G S v = k)
    (hpicked : picked.Nodup) (hnew : ∀ v ∈ picked, v ∉ found)
    (hadj : ∀ v ∈ picked, ∃ u ∈ frontier, G.Adj u v)
    (hlen : picked.length ≤ limit - found.length)
    (hall : picked.length < limit - found.length →
      ∀ u ∈ frontier, ∀ v, G.Adj u v → v ∉ found → v ∈ picked) :
    Explored G S limit (k + 1) (found ++ picked) ∧
      ∀ v, v ∈ picked ↔ v ∈ found ++ picked ∧ distFrom G S v = (k + 1 : ℕ) := by
  have hnext : ∀ v ∈ picked, distFrom G S v = (k + 1 : ℕ) := by
    intro v hv
    obtain ⟨u, hu, huv⟩ := hadj v hv
    exact h.dist_new hopen ((hfrontier u).mp hu).2.le huv (hnew v hv)
  have hcount : (found ++ picked).length = found.length + picked.length := List.length_append
  constructor
  · constructor
    · exact h.nodup.append hpicked fun v hv hv' => hnew v hv' hv
    · omega
    · apply List.pairwise_append.mpr
      refine ⟨h.sorted, ?_, ?_⟩
      · apply List.pairwise_of_forall_mem_list
        intro u hu v hv
        rw [hnext u hu, hnext v hv]
      · intro u hu v hv
        rw [hnext v hv]
        exact distFrom_le_succ_of_le (h.near u hu)
    · intro v hv
      obtain hv | hv := List.mem_append.mp hv
      · exact distFrom_le_succ_of_le (h.near v hv)
      · exact (hnext v hv).le
    · intro v hv
      exact List.mem_append_left _ (h.complete hopen v (distFrom_lt_succ_iff.mp hv))
    · intro hroom v hv
      by_cases hold : v ∈ found
      · exact List.mem_append_left _ hold
      · obtain hnear | ⟨u, hu, huv⟩ := distFrom_le_succ_iff.mp hv
        · exact List.mem_append_left _ (h.complete hopen v hnear)
        · have hlast := h.dist_last hopen hu huv hold
          have hmem := (hfrontier u).mpr ⟨h.complete hopen u hu, hlast⟩
          exact List.mem_append_right _ (hall (by omega) u hmem v huv hold)
  · intro v
    constructor
    · exact fun hv => ⟨List.mem_append_right _ hv, hnext v hv⟩
    · intro ⟨hv, hdist⟩
      obtain hv | hv := List.mem_append.mp hv
      · have hle := h.near v hv
        rw [hdist, Nat.cast_le] at hle
        omega
      · exact hv

/-- Nothing is left to find once a round has found nothing. -/
theorem Explored.stay (h : Explored G S limit k found) (hopen : found.length < limit)
    (hlast : ∀ v ∈ found, distFrom G S v ≠ k) (m : ℕ) : Explored G S limit (k + m) found := by
  have hround : ∀ j, Explored G S limit (k + j) found ∧
      ∀ v ∈ found, distFrom G S v ≠ (k + j : ℕ) := by
    intro j
    induction j with
    | zero => exact ⟨h, hlast⟩
    | succ j ih =>
        have hnone : ∀ v, v ∈ ([] : List V) ↔ v ∈ found ∧ distFrom G S v = (k + j : ℕ) := by
          intro v
          constructor
          · exact fun hv => absurd hv List.not_mem_nil
          · exact fun ⟨hv, hdist⟩ => absurd hdist (ih.2 v hv)
        obtain ⟨hnext, hnew⟩ := ih.1.round hopen hnone List.nodup_nil
          (fun _ hv => absurd hv List.not_mem_nil) (fun _ hv => absurd hv List.not_mem_nil)
          (Nat.zero_le _) fun _ _ hu => absurd hu List.not_mem_nil
        rw [List.append_nil] at hnext hnew
        exact ⟨hnext, fun v hv hdist => absurd ((hnew v).mpr ⟨hv, hdist⟩) List.not_mem_nil⟩
  exact (hround m).1

/-- What is missing is at least as far as all that was found, and then the limit is reached. -/
theorem Explored.missing (h : Explored G S limit k found) (hv : v ∉ found)
    (hreach : found.length < limit → distFrom G S v ≤ k) :
    found.length = limit ∧ ∀ u ∈ found, distFrom G S u ≤ distFrom G S v := by
  have hfull : ¬found.length < limit := fun hroom => hv (h.complete hroom v (hreach hroom))
  have hlen := h.length_le
  refine ⟨by omega, fun u hu => (h.near u hu).trans ?_⟩
  exact not_lt.mp (mt (h.closer v) hv)

end Search

end LocalGraphRag.Networks
