import Mathlib.Data.List.Induction
import Mathlib.Data.List.Perm.Basic
import Mathlib.Data.List.Sort
import Mathlib.Order.Defs.PartialOrder

/-!
# The best of a list

What a sort puts first, or picks by its indices, are the best items of a list: they are in
order, and none of the others goes before one of them.
-/

namespace LocalGraphRag.Sequences

variable {α β : Type}

/-- `top` are `n` items of `xs`, or all of them if there are fewer, in the order of `r`, and
every other item comes after them. -/
structure Best (r : α → α → Prop) (n : ℕ) (xs top : List α) : Prop where
  sorted : top.Pairwise r
  length : top.length = min n xs.length
  rest : ∃ rest, (top ++ rest).Perm xs ∧ ∀ a ∈ top, ∀ b ∈ rest, r a b

/-- The first items of a sorted list. -/
theorem best_take {r : α → α → Prop} {xs sorted : List α} (hperm : sorted.Perm xs)
    (hsorted : sorted.Pairwise r) (n : ℕ) : Best r n xs (sorted.take n) := by
  refine ⟨hsorted.sublist (List.take_sublist n sorted), ?_, sorted.drop n, ?_, ?_⟩
  · rw [List.length_take, hperm.length_eq]
  · rwa [List.take_append_drop]
  · rw [← List.take_append_drop n sorted, List.pairwise_append] at hsorted
    exact hsorted.2.2

theorem Best.nodup {r : α → α → Prop} {n : ℕ} {xs top : List α} (h : Best r n xs top)
    (hnodup : xs.Nodup) : top.Nodup := by
  obtain ⟨rest, hperm, -⟩ := h.rest
  exact (List.nodup_append.mp (hperm.nodup_iff.mpr hnodup)).1

section Keys
variable [LinearOrder β] {key : α → β} {xs ys : List α}

/-- `sorted(xs, key=key)`. -/
def sortBy (key : α → β) (xs : List α) : List α := xs.insertionSort fun a b => key a ≤ key b

theorem sortBy_perm (key : α → β) (xs : List α) : (sortBy key xs).Perm xs :=
  List.perm_insertionSort _ xs

theorem sortBy_pairwise (key : α → β) (xs : List α) :
    (sortBy key xs).Pairwise fun a b => key a ≤ key b := by
  have htotal : Std.Total fun a b => key a ≤ key b := ⟨fun a b => le_total (key a) (key b)⟩
  have htrans : IsTrans α fun a b => key a ≤ key b := ⟨fun _ _ _ => le_trans⟩
  exact List.pairwise_insertionSort (fun a b => key a ≤ key b) xs

/-- Where no two items have one key, their order in the list does not matter. -/
theorem sortBy_congr_perm (h : xs.Perm ys) (hkey : ∀ a ∈ xs, ∀ b ∈ xs, key a = key b → a = b) :
    sortBy key xs = sortBy key ys := by
  have hanti : ∀ a b, a ∈ sortBy key xs → b ∈ sortBy key ys → key a ≤ key b → key b ≤ key a →
      a = b := by
    intro a b ha hb hab hba
    have hax := (sortBy_perm key xs).subset ha
    have hbx := h.symm.subset ((sortBy_perm key ys).subset hb)
    exact hkey a hax b hbx (le_antisymm hab hba)
  exact List.Perm.eq_of_pairwise hanti (sortBy_pairwise key xs) (sortBy_pairwise key ys)
    ((sortBy_perm key xs).trans (h.trans (sortBy_perm key ys).symm))

theorem best_sortBy (key : α → β) (n : ℕ) (xs : List α) :
    Best (fun a b => key a ≤ key b) n xs ((sortBy key xs).take n) :=
  best_take (sortBy_perm key xs) (sortBy_pairwise key xs) n

end Keys

section Argsort

/-- `[xs[i] for i in indices]`. -/
def pick (xs : List α) (indices : List ℕ) : List α := indices.filterMap fun i => xs[i]?

/-- The indices of a list, those of smaller items before those of larger ones. -/
structure IsArgsort [LE β] (xs : List β) (indices : List ℕ) : Prop where
  perm : indices.Perm (List.range xs.length)
  sorted : indices.Pairwise fun i j => ∀ a ∈ xs[i]?, ∀ b ∈ xs[j]?, a ≤ b

theorem pick_range (xs : List α) : pick xs (List.range xs.length) = xs := by
  induction xs using List.reverseRecOn with
  | nil => rfl
  | append_singleton xs x ih =>
      have hbefore : pick (xs ++ [x]) (List.range xs.length) = pick xs (List.range xs.length) := by
        apply List.filterMap_congr
        intro i hi
        exact List.getElem?_append_left (List.mem_range.mp hi)
      rw [List.length_append, List.length_singleton, List.range_succ, pick, List.filterMap_append]
      change pick (xs ++ [x]) (List.range xs.length) ++ _ = _
      rw [hbefore, ih]
      simp

theorem pick_perm {xs : List α} {indices : List ℕ} (h : indices.Perm (List.range xs.length)) :
    (pick xs indices).Perm xs := by
  have hpick : (pick xs indices).Perm (pick xs (List.range xs.length)) := h.filterMap _
  rwa [pick_range] at hpick

theorem pick_cons {xs : List α} {i : ℕ} (hi : i < xs.length) (indices : List ℕ) :
    pick xs (i :: indices) = xs[i] :: pick xs indices :=
  List.filterMap_cons_some (List.getElem?_eq_getElem hi)

theorem pick_take {xs : List α} {indices : List ℕ} (h : ∀ i ∈ indices, i < xs.length) (n : ℕ) :
    pick xs (indices.take n) = (pick xs indices).take n := by
  induction indices generalizing n with
  | nil => simp [pick]
  | cons i indices ih =>
      have hi := h i List.mem_cons_self
      cases n with
      | zero => rfl
      | succ n =>
          rw [List.take_succ_cons, pick_cons hi, pick_cons hi, List.take_succ_cons,
            ih fun j hj => h j (List.mem_cons_of_mem i hj)]

/-- The items at the last `n` indices of an argsort, from the last one on, are those with the
largest scores. -/
theorem best_pick [Preorder β] {score : α → β} {xs : List α} {indices : List ℕ}
    (h : IsArgsort (xs.map score) indices) (n : ℕ) :
    Best (fun a b => score b ≤ score a) n xs (pick xs (indices.reverse.take n)) := by
  have hperm : indices.Perm (List.range xs.length) := by
    simpa only [List.length_map] using h.perm
  have hall : (pick xs indices.reverse).Perm xs := pick_perm (indices.reverse_perm.trans hperm)
  have hsorted : (pick xs indices.reverse).Pairwise fun a b => score b ≤ score a := by
    rw [pick, List.pairwise_filterMap, List.pairwise_reverse]
    refine h.sorted.imp ?_
    intro i j hij b hb a ha
    exact hij (score a) (by simp [ha]) (score b) (by simp [hb])
  have hvalid : ∀ i ∈ indices.reverse, i < xs.length := by
    intro i hi
    exact List.mem_range.mp (hperm.subset (List.mem_reverse.mp hi))
  rw [pick_take hvalid]
  exact best_take hall hsorted n

end Argsort

end LocalGraphRag.Sequences
