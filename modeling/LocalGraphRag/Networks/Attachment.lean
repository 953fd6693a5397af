import LocalGraphRag.Networks.Distance
import Mathlib.Algebra.BigOperators.Group.List.Basic
import Mathlib.Algebra.Order.BigOperators.Group.List
import Mathlib.Algebra.Order.Ring.Rat
import Mathlib.Data.Prod.Lex

/-!
# Attaching vertices to numbered groups, round after round

Some vertices have the number of a group. In a round, each vertex without one that has an
edge to a vertex with one takes the number to which it has the largest weight, the smallest
of these where they are equal. After `k` rounds the vertices with a number are those within
`k` edges, and each took the number that was best among the vertices nearer than itself.

## Implementation notes

The edges are a list of weighted pairs, each used in both directions. All that is said of
the list is said of sums over it, so its order does not matter.
-/

namespace LocalGraphRag.Networks

variable {V : Type*} [DecidableEq V] {edges : List ((V × V) × ℚ)} {u v x : V} {i j : ℕ}

/-- The undirected graph of weighted pairs. -/
def edgeGraph (edges : List ((V × V) × ℚ)) : SimpleGraph V :=
  SimpleGraph.fromRel fun a b => ∃ e ∈ edges, e.1 = (a, b)

/-- The pair links `v` to a vertex with `P`. -/
def LinksTo (v : V) (P : V → Prop) (e : (V × V) × ℚ) : Prop :=
  e.1.1 = v ∧ P e.1.2 ∨ e.1.2 = v ∧ P e.1.1

instance (v : V) (P : V → Prop) [DecidablePred P] : DecidablePred (LinksTo v P) := fun e =>
  inferInstanceAs (Decidable (e.1.1 = v ∧ P e.1.2 ∨ e.1.2 = v ∧ P e.1.1))

/-- The weight of the edges between `v` and the vertices with `P`. -/
def weightTo (edges : List ((V × V) × ℚ)) (v : V) (P : V → Prop) [DecidablePred P] : ℚ :=
  ((edges.filter fun e => LinksTo v P e).map Prod.snd).sum

section Weights

/-- However the vertices are decided. -/
theorem weightTo_congr {P Q : V → Prop} {_ : DecidablePred P} {_ : DecidablePred Q}
    (h : ∀ x, P x ↔ Q x) : weightTo edges v P = weightTo edges v Q := by
  have hfilter : (fun e => decide (LinksTo v P e)) = fun e => decide (LinksTo v Q e) := by
    funext e
    exact decide_eq_decide.mpr (or_congr (and_congr_right' (h _)) (and_congr_right' (h _)))
  rw [weightTo, weightTo, hfilter]

variable {P : V → Prop} [DecidablePred P]

theorem weightTo_eq_zero (h : ∀ e ∈ edges, ¬LinksTo v P e) : weightTo edges v P = 0 := by
  have hnil : edges.filter (fun e => decide (LinksTo v P e)) = [] := by
    apply List.filter_eq_nil_iff.mpr
    exact fun e he hlinks => h e he (of_decide_eq_true hlinks)
  rw [weightTo, hnil]
  rfl

theorem weightTo_pos (hpos : ∀ e ∈ edges, 0 < e.2) (h : ∃ e ∈ edges, LinksTo v P e) :
    0 < weightTo edges v P := by
  apply List.sum_pos
  · intro w hw
    obtain ⟨e, he, rfl⟩ := List.mem_map.mp hw
    exact hpos e (List.mem_filter.mp he).1
  · obtain ⟨e, he, hlinks⟩ := h
    intro hnil
    have hmem : e ∈ edges.filter fun e => decide (LinksTo v P e) :=
      List.mem_filter.mpr ⟨he, decide_eq_true hlinks⟩
    rw [List.map_eq_nil_iff.mp hnil] at hmem
    exact List.not_mem_nil hmem

end Weights

/-- A larger weight comes first, of equal ones the smaller number. -/
def strength (edges : List ((V × V) × ℚ)) (v : V) (P : ℕ → V → Prop)
    [∀ i, DecidablePred (P i)] (i : ℕ) : ℚ ×ₗ ℕ :=
  toLex (-weightTo edges v (P i), i)

section Strength

theorem strength_congr {P Q : ℕ → V → Prop} {_ : ∀ i, DecidablePred (P i)}
    {_ : ∀ i, DecidablePred (Q i)} (h : ∀ i x, P i x ↔ Q i x) (i : ℕ) :
    strength edges v P i = strength edges v Q i := by
  rw [strength, strength, weightTo_congr (h i)]

variable {P : ℕ → V → Prop} [∀ i, DecidablePred (P i)]

theorem strength_le_iff : strength edges v P i ≤ strength edges v P j ↔
    weightTo edges v (P j) < weightTo edges v (P i) ∨
      weightTo edges v (P j) = weightTo edges v (P i) ∧ i ≤ j := by
  rw [strength, strength, Prod.Lex.toLex_le_toLex, neg_lt_neg_iff, neg_inj, eq_comm]

/-- Where weights are positive, a number without an edge is weaker than one with an edge. -/
theorem strength_le_of_unlinked (hpos : ∀ e ∈ edges, 0 < e.2)
    (hi : ∃ e ∈ edges, LinksTo v (P i) e) (hj : ¬∃ e ∈ edges, LinksTo v (P j) e) :
    strength edges v P i ≤ strength edges v P j := by
  have hzero : weightTo edges v (P j) = 0 :=
    weightTo_eq_zero fun e he hlinks => hj ⟨e, he, hlinks⟩
  have hweight := weightTo_pos hpos hi
  rw [strength, strength, hzero]
  apply le_of_lt
  rw [Prod.Lex.toLex_lt_toLex]
  exact Or.inl (by simpa using hweight)

end Strength

/-- One round: the numbers are kept, a vertex linked to one with a number takes one, and it
is the strongest of those it is linked to. -/
structure Joins (edges : List ((V × V) × ℚ)) (f f' : V → Option ℕ) : Prop where
  kept : ∀ v i, f v = some i → f' v = some i
  placed : ∀ v, f v = none → (f' v ≠ none ↔ ∃ u, (edgeGraph edges).Adj u v ∧ f u ≠ none)
  best : ∀ v i, f v = none → f' v = some i →
    (∃ e ∈ edges, LinksTo v (fun x => f x = some i) e) ∧
    ∀ j, (∃ e ∈ edges, LinksTo v (fun x => f x = some j) e) →
      strength edges v (fun j x => f x = some j) i ≤ strength edges v (fun j x => f x = some j) j

section Rounds
variable {S : Set V} {f₀ f f' : V → Option ℕ} {k d : ℕ}

open Classical in
/-- After `k` rounds from the numbers of `S`. -/
structure AttachedUpTo (edges : List ((V × V) × ℚ)) (S : Set V) (f₀ : V → Option ℕ) (k : ℕ)
    (f : V → Option ℕ) : Prop where
  reached : ∀ v, f v ≠ none ↔ distFrom (edgeGraph edges) S v ≤ k
  kept : ∀ v i, f₀ v = some i → f v = some i
  best : ∀ v d, 0 < d → d ≤ k → distFrom (edgeGraph edges) S v = (d : ℕ) →
    ∀ i, f v = some i → ∀ j,
      strength edges v (fun j x => distFrom (edgeGraph edges) S x < d ∧ f x = some j) i ≤
        strength edges v (fun j x => distFrom (edgeGraph edges) S x < d ∧ f x = some j) j

theorem attachedUpTo_zero (h : ∀ v, f₀ v ≠ none ↔ v ∈ S) : AttachedUpTo edges S f₀ 0 f₀ := by
  constructor
  · intro v
    rw [h, distFrom_le_zero_iff]
  · exact fun _ _ hv => hv
  · intro v d hpos hle
    omega

/-- What has a number keeps it. -/
theorem AttachedUpTo.unchanged (h : AttachedUpTo edges S f₀ k f) (hjoins : Joins edges f f')
    (hx : distFrom (edgeGraph edges) S x ≤ k) : f' x = f x := by
  obtain ⟨i, hi⟩ := Option.ne_none_iff_exists'.mp ((h.reached x).mpr hx)
  rw [hi, hjoins.kept x i hi]

/-- The numbers before a round are those of all vertices nearer than what joins in it. -/
theorem AttachedUpTo.nearer_iff (h : AttachedUpTo edges S f₀ k f) (j : ℕ) (x : V) :
    distFrom (edgeGraph edges) S x < (k + 1 : ℕ) ∧ f x = some j ↔ f x = some j := by
  constructor
  · exact fun hx => hx.2
  · intro hx
    have hsome : f x ≠ none := by simp [hx]
    exact ⟨distFrom_lt_succ_iff.mpr ((h.reached x).mp hsome), hx⟩

theorem AttachedUpTo.round (h : AttachedUpTo edges S f₀ k f) (hpos : ∀ e ∈ edges, 0 < e.2)
    (hjoins : Joins edges f f') : AttachedUpTo edges S f₀ (k + 1) f' := by
  constructor
  · intro v
    rw [distFrom_le_succ_iff]
    by_cases hv : f v = none
    · have hfar : ¬distFrom (edgeGraph edges) S v ≤ k := fun hle => (h.reached v).mpr hle hv
      simp only [hjoins.placed v hv, hfar, false_or, h.reached, and_comm]
    · have hnear := (h.reached v).mp hv
      rw [h.unchanged hjoins hnear]
      exact ⟨fun _ => Or.inl hnear, fun _ => hv⟩
  · exact fun v i hv => hjoins.kept v i (h.kept v i hv)
  · intro v d hd hle hdist i hi j
    have hsame : ∀ j x, distFrom (edgeGraph edges) S x < d ∧ f' x = some j ↔
        distFrom (edgeGraph edges) S x < d ∧ f x = some j := by
      intro j x
      apply and_congr_right
      intro hx
      have hnear : distFrom (edgeGraph edges) S x ≤ k :=
        distFrom_lt_succ_iff.mp (hx.trans_le (Nat.cast_le.mpr hle))
      rw [h.unchanged hjoins hnear]
    rw [strength_congr hsame, strength_congr hsame]
    obtain hearlier | rfl := Nat.lt_succ_iff_lt_or_eq.mp (Nat.lt_succ_of_le hle)
    · have hdk := Nat.le_of_lt_succ hearlier
      rw [h.unchanged hjoins (hdist ▸ Nat.cast_le.mpr hdk)] at hi
      exact h.best v d hd hdk hdist i hi j
    · rw [strength_congr h.nearer_iff, strength_congr h.nearer_iff]
      have hnone : f v = none := by
        by_contra hsome
        have hnear := (h.reached v).mp hsome
        rw [hdist, Nat.cast_le] at hnear
        omega
      obtain ⟨hlinked, hbest⟩ := hjoins.best v i hnone hi
      by_cases hj : ∃ e ∈ edges, LinksTo v (fun x => f x = some j) e
      · exact hbest j hj
      · exact strength_le_of_unlinked hpos hlinked hj

/-- The number of a vertex has the largest weight to the nearer vertices. -/
theorem AttachedUpTo.largest (h : AttachedUpTo edges S f₀ k f) (hd : 0 < d)
    (hdist : distFrom (edgeGraph edges) S v = (d : ℕ)) (hi : f v = some i)
    {P : ℕ → V → Prop} {_ : ∀ i, DecidablePred (P i)}
    (hP : ∀ i x, P i x ↔ distFrom (edgeGraph edges) S x < d ∧ f x = some i) (j : ℕ) :
    weightTo edges v (P j) < weightTo edges v (P i) ∨
      weightTo edges v (P j) = weightTo edges v (P i) ∧ i ≤ j := by
  have hreached := (h.reached v).mp (hi ▸ Option.some_ne_none i)
  rw [hdist, Nat.cast_le] at hreached
  have hbest := h.best v d hd hreached hdist i hi j
  rw [← strength_congr hP, ← strength_congr hP] at hbest
  exact strength_le_iff.mp hbest

/-- Where no edge leaves the vertices with a number, these are all that can be reached. -/
theorem AttachedUpTo.closed (h : AttachedUpTo edges S f₀ k f)
    (hclosed : ∀ u v, (edgeGraph edges).Adj u v → f u ≠ none → f v ≠ none) (v : V) :
    f v ≠ none ↔ distFrom (edgeGraph edges) S v ≠ ⊤ := by
  have hmore : ∀ m v, distFrom (edgeGraph edges) S v ≤ (k + m : ℕ) → f v ≠ none := by
    intro m
    induction m with
    | zero => exact fun v hv => (h.reached v).mpr hv
    | succ m ih =>
        intro v hv
        obtain hnear | ⟨u, hu, hadj⟩ := distFrom_le_succ_iff.mp hv
        · exact ih v hnear
        · exact hclosed u v hadj (ih u hu)
  constructor
  · intro hv htop
    have hle := (h.reached v).mp hv
    rw [htop, top_le_iff] at hle
    exact ENat.natCast_ne_top k hle
  · intro hv
    obtain ⟨d, hd⟩ := ENat.ne_top_iff_exists.mp hv
    apply hmore d v
    rw [← hd, Nat.cast_le]
    omega

end Rounds

end LocalGraphRag.Networks
