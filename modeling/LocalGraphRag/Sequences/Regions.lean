import Mathlib.Data.List.Basic

/-!
# Regions of a sequence

An item may open a region and a later one close it. A region goes from the item that opens
it to the first one that closes it, or to the end, and no region opens inside another.
Where the regions are is said of positions; the laws below say what a single pass has to
remember.
-/

namespace LocalGraphRag.Sequences

variable {α : Type*} (opens : α → Prop) (closes : α → α → Prop) (items : List α)

/-- The item at `k` can close what the one at `j` opens. -/
def ClosesAt (j k : Nat) : Prop :=
  ∃ x y, items[j]? = some x ∧ items[k]? = some y ∧ closes x y

/-- The item at `j` opens a region: every region opened before it is closed before it. -/
def OpensAt (j : Nat) : Prop :=
  (∃ x, items[j]? = some x ∧ opens x) ∧
    ∀ i, (_ : i < j) → OpensAt i → ∃ k, i < k ∧ k < j ∧ ClosesAt closes items i k
termination_by j

/-- The item at `i` belongs to a region: it is not after the item that closes it. -/
def Inside (i : Nat) : Prop :=
  ∃ j, j ≤ i ∧ OpensAt opens closes items j ∧
    ∀ k, j < k → k < i → ¬ClosesAt closes items j k

/-- Before the item at `i`, the region that `x` opened is still open. -/
def OpenAt (i : Nat) (x : α) : Prop :=
  ∃ j, j < i ∧ OpensAt opens closes items j ∧ items[j]? = some x ∧
    ∀ k, j < k → k < i → ¬ClosesAt closes items j k

variable {opens closes items} {i j : Nat} {x y o : α}

theorem not_openAt_zero : ¬OpenAt opens closes items 0 x := by
  intro ⟨j, hj, _⟩
  exact absurd hj (Nat.not_lt_zero j)

theorem OpensAt.exists_item (h : OpensAt opens closes items j) :
    ∃ x, items[j]? = some x ∧ opens x := by
  rw [OpensAt] at h
  exact h.1

/-- An item inside a region, but not the one that opens it, comes while it is open. -/
theorem inside_iff : Inside opens closes items i ↔
    OpensAt opens closes items i ∨ ∃ x, OpenAt opens closes items i x := by
  constructor
  · intro ⟨j, hle, hopens, hnone⟩
    obtain hlt | rfl := Nat.lt_or_eq_of_le hle
    · obtain ⟨x, hx, -⟩ := hopens.exists_item
      exact Or.inr ⟨x, j, hlt, hopens, hx, hnone⟩
    · exact Or.inl hopens
  · intro h
    obtain hopens | ⟨x, j, hlt, hopens, -, hnone⟩ := h
    · exact ⟨i, Nat.le_refl i, hopens, fun k hik hki => absurd hki (Nat.not_lt_of_lt hik)⟩
    · exact ⟨j, Nat.le_of_lt hlt, hopens, hnone⟩

/-- An item opens a region when it can and no region is open. -/
theorem opensAt_iff (hy : items[i]? = some y) : OpensAt opens closes items i ↔
    opens y ∧ ∀ x, ¬OpenAt opens closes items i x := by
  rw [OpensAt]
  constructor
  · intro ⟨⟨z, hz, hopen⟩, hfree⟩
    rw [hy, Option.some_inj] at hz
    refine ⟨hz ▸ hopen, ?_⟩
    intro x ⟨j, hj, hopens, _, hnone⟩
    obtain ⟨k, hjk, hki, hcloses⟩ := hfree j hj hopens
    exact hnone k hjk hki hcloses
  · intro ⟨hopen, hfree⟩
    refine ⟨⟨y, hy, hopen⟩, ?_⟩
    intro j hj hopens
    by_contra hnone
    obtain ⟨x, hx, -⟩ := hopens.exists_item
    refine hfree x ⟨j, hj, hopens, hx, ?_⟩
    intro k hjk hki hcloses
    exact hnone ⟨k, hjk, hki, hcloses⟩

/-- No region opens while another is open. -/
theorem not_opensAt_of_open (hij : i < j) (hi : OpensAt opens closes items i)
    (hnone : ∀ k, i < k → k < j → ¬ClosesAt closes items i k) :
    ¬OpensAt opens closes items j := by
  intro hj
  rw [OpensAt] at hj
  obtain ⟨k, hik, hkj, hcloses⟩ := hj.2 i hij hi
  exact hnone k hik hkj hcloses

/-- While no region is open, the next item opens one if it can. -/
theorem openAt_succ_of_closed (hy : items[i]? = some y)
    (hclosed : ∀ x, ¬OpenAt opens closes items i x) :
    OpenAt opens closes items (i + 1) o ↔ opens y ∧ o = y := by
  constructor
  · intro ⟨j, hj, hopens, ho, hnone⟩
    obtain hlt | rfl := Nat.lt_or_eq_of_le (Nat.le_of_lt_succ hj)
    · exact absurd ⟨j, hlt, hopens, ho, fun k hjk hki => hnone k hjk (by omega)⟩ (hclosed o)
    · rw [hy, Option.some_inj] at ho
      exact ⟨((opensAt_iff hy).mp hopens).1, ho.symm⟩
  · intro ⟨hopen, ho⟩
    subst ho
    exact ⟨i, Nat.lt_succ_self i, (opensAt_iff hy).mpr ⟨hopen, hclosed⟩, hy,
      fun k hik hki => absurd hki (by omega)⟩

/-- A region that is open stays open unless the next item closes it. -/
theorem openAt_succ_of_open (hy : items[i]? = some y) (hx : OpenAt opens closes items i x) :
    OpenAt opens closes items (i + 1) o ↔ o = x ∧ ¬closes x y := by
  obtain ⟨j, hj, hopens, hxj, hnone⟩ := hx
  constructor
  · intro ⟨j', hj', hopens', ho, hnone'⟩
    have hsame : j' = j := by
      obtain hlt | heq | hgt := Nat.lt_trichotomy j' j
      · exact absurd hopens
          (not_opensAt_of_open hlt hopens' fun k hk hkj => hnone' k hk (by omega))
      · exact heq
      · exact absurd hopens'
          (not_opensAt_of_open hgt hopens fun k hk hkj => hnone k hk (by omega))
    subst hsame
    rw [hxj, Option.some_inj] at ho
    refine ⟨ho.symm, ?_⟩
    intro hcloses
    exact hnone' i hj (Nat.lt_succ_self i) ⟨x, y, hxj, hy, hcloses⟩
  · intro ⟨ho, hopen⟩
    subst ho
    refine ⟨j, by omega, hopens, hxj, ?_⟩
    intro k hjk hki
    obtain hlt | rfl := Nat.lt_or_eq_of_le (Nat.le_of_lt_succ hki)
    · exact hnone k hjk hlt
    · intro ⟨a, b, ha, hb, hcloses⟩
      rw [hxj, Option.some_inj] at ha
      rw [hy, Option.some_inj] at hb
      exact hopen (ha ▸ hb ▸ hcloses)

end LocalGraphRag.Sequences
