import Mathlib.Algebra.BigOperators.Group.Finset.Sigma
import Mathlib.Algebra.Field.Basic
import Mathlib.Data.Finset.Prod
import Mathlib.Tactic.Ring

/-!
# Pairs of vertices that share a block

Vertices are linked to blocks, at most once to each. Two links of one block are a pair, and
a pair has a weight that its block decides. Summed over the pairs of one vertex, each of its
blocks counts once for every other member. A block that gives a pair its part among the
others of a member therefore gives each member the same, however many they are.

## Implementation notes

Links are elements of any type with a block and a vertex, and a pair has its smaller vertex
first, so that no pair is counted twice.
-/

namespace LocalGraphRag.Networks

open Finset

variable {L B V K : Type*} [DecidableEq B] [LinearOrder V]

section Pairs
variable (links : Finset L) (block : L → B) (vertex : L → V)

/-- The pairs of links of one block. -/
def blockPairs : Finset (L × L) :=
  (links ×ˢ links).filter fun p => block p.2 = block p.1 ∧ vertex p.1 < vertex p.2

/-- The number of links of a block. -/
def blockSize (b : B) : ℕ := #{l ∈ links | block l = b}

/-- No vertex is linked twice to a block. -/
def LinkedOnce : Prop :=
  ∀ l ∈ links, ∀ l' ∈ links, block l = block l' → vertex l = vertex l' → l = l'

/-- The other links of the block of `l`, whose vertex is on the given side. -/
def matesAbove (l : L) : Finset L := {l' ∈ links | block l' = block l ∧ vertex l < vertex l'}

def matesBelow (l : L) : Finset L := {l' ∈ links | block l' = block l ∧ vertex l' < vertex l}

end Pairs

section Sums
variable {links : Finset L} {block : L → B} {vertex : L → V} {l : L}

theorem mem_blockPairs {p : L × L} : p ∈ blockPairs links block vertex ↔
    p.1 ∈ links ∧ p.2 ∈ links ∧ block p.2 = block p.1 ∧ vertex p.1 < vertex p.2 := by
  rw [blockPairs, mem_filter, mem_product, and_assoc]

/-- The links of a block are one of them, those above it and those below. -/
theorem card_mates (h : LinkedOnce links block vertex) (hl : l ∈ links) :
    #(matesAbove links block vertex l) + #(matesBelow links block vertex l) + 1 =
      blockSize links block (block l) := by
  classical
  have hdisjoint : Disjoint (matesAbove links block vertex l) (matesBelow links block vertex l) :=
    disjoint_filter.mpr fun l' _ habove hbelow => lt_asymm habove.2 hbelow.2
  have hothers : matesAbove links block vertex l ∪ matesBelow links block vertex l =
      {l' ∈ links | block l' = block l}.erase l := by
    ext l'
    simp only [matesAbove, matesBelow, mem_union, mem_filter, mem_erase]
    constructor
    · intro hside
      obtain ⟨hl', hblock, hlt⟩ | ⟨hl', hblock, hlt⟩ := hside
      · exact ⟨fun heq => lt_irrefl _ (heq ▸ hlt), hl', hblock⟩
      · exact ⟨fun heq => lt_irrefl _ (heq ▸ hlt), hl', hblock⟩
    · intro ⟨hne, hl', hblock⟩
      have hvertex : vertex l ≠ vertex l' := fun heq => hne (h l hl l' hl' hblock.symm heq).symm
      obtain hlt | hlt := lt_or_gt_of_ne hvertex
      · exact Or.inl ⟨hl', hblock, hlt⟩
      · exact Or.inr ⟨hl', hblock, hlt⟩
  have hmem : l ∈ ({l' ∈ links | block l' = block l} : Finset L) := mem_filter.mpr ⟨hl, rfl⟩
  rw [← card_union_of_disjoint hdisjoint, hothers, card_erase_add_one hmem]
  rfl

variable [DecidableEq V] [Field K] (f : B → K) (v : V)

/-- The pairs of `v` where it comes first. -/
theorem sum_first :
    ∑ p ∈ blockPairs links block vertex with vertex p.1 = v, f (block p.1) =
      ∑ l ∈ links with vertex l = v, (#(matesAbove links block vertex l) : K) * f (block l) := by
  have hpairs : ∀ p, p ∈ {p ∈ blockPairs links block vertex | vertex p.1 = v} ↔
      p.1 ∈ ({l ∈ links | vertex l = v} : Finset L) ∧ p.2 ∈ matesAbove links block vertex p.1 := by
    intro p
    simp only [mem_blockPairs, matesAbove, mem_filter]
    tauto
  rw [sum_finset_product _ _ _ hpairs]
  apply sum_congr rfl
  intro l _
  dsimp only
  rw [sum_const, nsmul_eq_mul]

theorem sum_second :
    ∑ p ∈ blockPairs links block vertex with vertex p.2 = v, f (block p.1) =
      ∑ l ∈ links with vertex l = v, (#(matesBelow links block vertex l) : K) * f (block l) := by
  have hpairs : ∀ p, p ∈ {p ∈ blockPairs links block vertex | vertex p.2 = v} ↔
      p.2 ∈ ({l ∈ links | vertex l = v} : Finset L) ∧ p.1 ∈ matesBelow links block vertex p.2 := by
    intro p
    simp only [mem_blockPairs, matesBelow, mem_filter, eq_comm (a := block p.1)]
    tauto
  rw [sum_finset_product_right _ _ _ hpairs]
  apply sum_congr rfl
  intro l _
  have hblock : ∀ l' ∈ matesBelow links block vertex l, f (block l') = f (block l) :=
    fun l' hl' => congrArg f (mem_filter.mp hl').2.1
  rw [sum_congr rfl hblock, sum_const, nsmul_eq_mul]

/-- At `v`, a block counts once for each of its other members. -/
theorem sum_blockPairs_at (h : LinkedOnce links block vertex) :
    ∑ p ∈ blockPairs links block vertex with vertex p.1 = v ∨ vertex p.2 = v, f (block p.1) =
      ∑ l ∈ links with vertex l = v,
        ((blockSize links block (block l) : K) - 1) * f (block l) := by
  classical
  have hdisjoint : Disjoint {p ∈ blockPairs links block vertex | vertex p.1 = v}
      {p ∈ blockPairs links block vertex | vertex p.2 = v} := by
    apply disjoint_filter.mpr
    intro p hp hfirst hsecond
    have hlt := (mem_blockPairs.mp hp).2.2.2
    exact hlt.ne (hfirst.trans hsecond.symm)
  calc
    ∑ p ∈ blockPairs links block vertex with vertex p.1 = v ∨ vertex p.2 = v, f (block p.1) =
        ∑ p ∈ blockPairs links block vertex with vertex p.1 = v, f (block p.1) +
          ∑ p ∈ blockPairs links block vertex with vertex p.2 = v, f (block p.1) := by
      rw [filter_or, sum_union hdisjoint]
    _ = ∑ l ∈ links with vertex l = v, ((#(matesAbove links block vertex l) : K) * f (block l) +
          #(matesBelow links block vertex l) * f (block l)) := by
      rw [sum_first, sum_second, sum_add_distrib]
    _ = ∑ l ∈ links with vertex l = v,
        ((blockSize links block (block l) : K) - 1) * f (block l) := by
      apply sum_congr rfl
      intro l hl
      rw [← card_mates h (mem_of_mem_filter l hl)]
      push_cast
      ring

end Sums

section Shares
variable {links : Finset L} {block : L → B} {vertex : L → V} {l : L}
variable [DecidableEq V] [Field K] [CharZero K] (w : K)

/-- What a block gives to a pair: its weight, split over the other members. -/
def share (links : Finset L) (block : L → B) (w : K) (b : B) : K :=
  w / ((blockSize links block b : K) - 1)

theorem blockSize_sub_one_ne_zero {b : B} (h : 1 < blockSize links block b) :
    (blockSize links block b : K) - 1 ≠ 0 :=
  sub_ne_zero.mpr (Nat.cast_ne_one.mpr h.ne')

/-- A block of one member gives nothing, every other its weight. -/
theorem mul_share (hl : l ∈ links) :
    ((blockSize links block (block l) : K) - 1) * share links block w (block l) =
      if 1 < blockSize links block (block l) then w else 0 := by
  split_ifs with hsize
  · exact mul_div_cancel₀ w (blockSize_sub_one_ne_zero hsize)
  · have hpos : 0 < blockSize links block (block l) := card_pos.mpr ⟨l, mem_filter.mpr ⟨hl, rfl⟩⟩
    have hone : blockSize links block (block l) = 1 := by omega
    rw [hone, Nat.cast_one, sub_self, zero_mul]

/-- A vertex has the weight of a block from each block that it shares. -/
theorem sum_shares (h : LinkedOnce links block vertex) (v : V) :
    ∑ p ∈ blockPairs links block vertex with vertex p.1 = v ∨ vertex p.2 = v,
        share links block w (block p.1) =
      w * #{l ∈ links | vertex l = v ∧ 1 < blockSize links block (block l)} := by
  calc
    ∑ p ∈ blockPairs links block vertex with vertex p.1 = v ∨ vertex p.2 = v,
        share links block w (block p.1) =
        ∑ l ∈ links with vertex l = v, ((blockSize links block (block l) : K) - 1) *
          share links block w (block l) := sum_blockPairs_at _ v h
    _ = ∑ l ∈ links with vertex l = v,
        if 1 < blockSize links block (block l) then w else 0 := by
      apply sum_congr rfl
      intro l hl
      exact mul_share w (mem_of_mem_filter l hl)
    _ = w * #{l ∈ links | vertex l = v ∧ 1 < blockSize links block (block l)} := by
      rw [← sum_filter, filter_filter, sum_const, nsmul_eq_mul, mul_comm]

/-- However many members a block has, it gives the same to each. -/
theorem sum_shares_of_block (h : LinkedOnce links block vertex) (hl : l ∈ links)
    (hsize : 1 < blockSize links block (block l)) :
    ∑ p ∈ blockPairs links block vertex with
        block p.1 = block l ∧ (vertex p.1 = vertex l ∨ vertex p.2 = vertex l),
      share links block w (block l) = w := by
  have hmem : l ∈ ({l' ∈ links | vertex l' = vertex l} : Finset L) := mem_filter.mpr ⟨hl, rfl⟩
  calc
    ∑ p ∈ blockPairs links block vertex with
        block p.1 = block l ∧ (vertex p.1 = vertex l ∨ vertex p.2 = vertex l),
      share links block w (block l) =
        ∑ p ∈ blockPairs links block vertex with vertex p.1 = vertex l ∨ vertex p.2 = vertex l,
          if block p.1 = block l then share links block w (block l) else 0 := by
      rw [← sum_filter, filter_filter]
      simp only [and_comm]
    _ = ∑ l' ∈ links with vertex l' = vertex l, ((blockSize links block (block l') : K) - 1) *
          if block l' = block l then share links block w (block l) else 0 :=
      sum_blockPairs_at (fun b => if b = block l then share links block w (block l) else 0) _ h
    _ = ((blockSize links block (block l) : K) - 1) * share links block w (block l) := by
      rw [sum_eq_single_of_mem l hmem, if_pos rfl]
      intro l' hl' hne
      have hblock : block l' ≠ block l := fun heq =>
        hne (h l' (mem_filter.mp hl').1 l hl heq (mem_filter.mp hl').2)
      rw [if_neg hblock, mul_zero]
    _ = w := by rw [mul_share w hl, if_pos hsize]

end Shares

end LocalGraphRag.Networks
