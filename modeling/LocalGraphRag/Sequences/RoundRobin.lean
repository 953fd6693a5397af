import Mathlib.Data.Finset.Card
import Mathlib.Data.List.Basic

/-!
# Taking in turn from ranked lists

Tiers of ranked lists, the items that were not seen before, and a bound on how many of them
are taken. A short list leaves gaps in the later tiers, and an item of several lists is
taken where it comes first.

## Implementation notes

A tier has one place for each list, so a number of tiers has at most that many places times
the number of lists. What is in them is within any bound at least as large.
-/

namespace LocalGraphRag.Sequences

variable {α β : Type*}

/-- `zip_longest` with gaps where a list has ended. -/
def zipLongest (lists : List (List α)) : List (List (Option α)) :=
  (List.range ((lists.map List.length).foldr max 0)).map fun j => lists.map (·[j]?)

section Fresh
variable [DecidableEq α] {a : α} {seen : Finset α} {items rest : List (Option α)}

/-- The items not seen before, each where it comes first. -/
def fresh (seen : Finset α) : List (Option α) → List α
  | [] => []
  | none :: items => fresh seen items
  | some a :: items => if a ∈ seen then fresh seen items else a :: fresh (insert a seen) items

theorem mem_fresh : a ∈ fresh seen items ↔ some a ∈ items ∧ a ∉ seen := by
  induction items generalizing seen with
  | nil => simp [fresh]
  | cons item items ih =>
      cases item with
      | none => simp [fresh, ih]
      | some b =>
          rw [fresh]
          split_ifs with hb
          · rw [ih, List.mem_cons]
            constructor
            · exact fun ⟨hitem, ha⟩ => ⟨Or.inr hitem, ha⟩
            · intro ⟨hitem, ha⟩
              obtain hab | hitem := hitem
              · exact absurd (Option.some.inj hab ▸ hb) ha
              · exact ⟨hitem, ha⟩
          · rw [List.mem_cons, ih, List.mem_cons, Finset.mem_insert, not_or, Option.some.injEq]
            by_cases hab : a = b
            · simp [hab, hb]
            · simp [hab]

theorem nodup_fresh (seen : Finset α) (items : List (Option α)) : (fresh seen items).Nodup := by
  induction items generalizing seen with
  | nil => exact List.nodup_nil
  | cons item items ih =>
      cases item with
      | none => exact ih seen
      | some a =>
          rw [fresh]
          split_ifs with ha
          · exact ih seen
          · apply (ih _).cons
            intro hmem
            exact (mem_fresh.mp hmem).2 (Finset.mem_insert_self a seen)

theorem length_fresh_le (seen : Finset α) (items : List (Option α)) :
    (fresh seen items).length ≤ items.length := by
  induction items generalizing seen with
  | nil => exact Nat.le_refl 0
  | cons item items ih =>
      cases item with
      | none => exact (ih seen).trans (Nat.le_succ _)
      | some a =>
          rw [fresh]
          split_ifs
          · exact (ih seen).trans (Nat.le_succ _)
          · exact Nat.succ_le_succ (ih _)

theorem fresh_prefix (seen : Finset α) (items rest : List (Option α)) :
    fresh seen items <+: fresh seen (items ++ rest) := by
  induction items generalizing seen with
  | nil => exact List.nil_prefix
  | cons item items ih =>
      cases item with
      | none => exact ih seen
      | some a =>
          rw [List.cons_append, fresh, fresh]
          split_ifs
          · exact ih seen
          · exact List.prefix_cons_iff.mpr (Or.inr ⟨_, rfl, ih _⟩)

/-- An unseen item among the first `n` is among the first `n` fresh ones. -/
theorem mem_take_fresh {n bound : Nat} (hbound : n ≤ bound) (hitem : some a ∈ items.take n)
    (ha : a ∉ seen) : a ∈ (fresh seen items).take bound := by
  have hstarts := fresh_prefix seen (items.take n) (items.drop n)
  rw [List.take_append_drop] at hstarts
  have hlen := (length_fresh_le seen (items.take n)).trans (List.length_take_le n items)
  have hshort := List.prefix_take_iff.mpr ⟨hstarts, hlen.trans hbound⟩
  exact hshort.subset (mem_fresh.mpr ⟨hitem, ha⟩)

/-- The keys of a dictionary that is filled in this order. -/
def distinct (items : List α) : List α := fresh ∅ (items.map some)

theorem mem_distinct {items : List α} : a ∈ distinct items ↔ a ∈ items := by
  rw [distinct, mem_fresh]
  simp

theorem nodup_distinct (items : List α) : (distinct items).Nodup := nodup_fresh ∅ _

theorem fresh_of_nodup {items : List α} (hnodup : items.Nodup) (hseen : ∀ a ∈ items, a ∉ seen) :
    fresh seen (items.map some) = items := by
  induction items generalizing seen with
  | nil => rfl
  | cons a items ih =>
      rw [List.nodup_cons] at hnodup
      rw [List.map_cons, fresh, if_neg (hseen a List.mem_cons_self), ih hnodup.2]
      intro b hb hmem
      obtain rfl | hmem := Finset.mem_insert.mp hmem
      · exact hnodup.1 hb
      · exact hseen b (List.mem_cons_of_mem a hb) hmem

theorem distinct_of_nodup {items : List α} (h : items.Nodup) : distinct items = items :=
  fresh_of_nodup h fun _ _ => Finset.notMem_empty _

end Fresh

section Tiers
variable {lists : List (List α)} {l : List α} {a : α} {j k : Nat}

theorem length_le_tiers (hl : l ∈ lists) : l.length ≤ (zipLongest lists).length := by
  rw [zipLongest, List.length_map, List.length_range]
  induction lists with
  | nil => exact absurd hl List.not_mem_nil
  | cons m lists ih =>
      rw [List.map_cons, List.foldr_cons]
      obtain rfl | hl := List.mem_cons.mp hl
      · exact le_max_left _ _
      · exact (ih hl).trans (le_max_right _ _)

/-- An item is in the tier of its rank. -/
theorem mem_take_tiers (hl : l ∈ lists) (ha : l[j]? = some a) (hj : j < k) :
    some a ∈ ((zipLongest lists).take k).flatten := by
  obtain ⟨hlen, -⟩ := List.getElem?_eq_some_iff.mp ha
  have htier : (zipLongest lists)[j]? = some (lists.map (·[j]?)) := by
    have hrange := hlen.trans_le (length_le_tiers hl)
    rw [zipLongest, List.length_map, List.length_range] at hrange
    rw [zipLongest, List.getElem?_map, List.getElem?_range hrange, Option.map_some]
  apply List.mem_flatten.mpr
  refine ⟨lists.map (·[j]?), ?_, List.mem_map.mpr ⟨l, hl, ha⟩⟩
  exact List.mem_iff_getElem?.mpr ⟨j, by rw [List.getElem?_take_of_lt hj, htier]⟩

/-- The first tiers hold at most one item for each list and tier. -/
theorem length_take_tiers_le (lists : List (List α)) (k : Nat) :
    ((zipLongest lists).take k).flatten.length ≤ k * lists.length := by
  have htier : ∀ tier ∈ (zipLongest lists).take k, tier.length = lists.length := by
    intro tier htier
    obtain ⟨j, -, rfl⟩ := List.mem_map.mp (List.mem_of_mem_take htier)
    exact List.length_map _
  rw [List.length_flatten, List.map_congr_left htier, List.map_const', List.sum_replicate_nat]
  exact Nat.mul_le_mul_right _ (List.length_take_le _ _)

theorem some_mem_tiers : some a ∈ (zipLongest lists).flatten ↔ ∃ l ∈ lists, a ∈ l := by
  constructor
  · intro h
    obtain ⟨tier, htier, ha⟩ := List.mem_flatten.mp h
    obtain ⟨j, -, rfl⟩ := List.mem_map.mp htier
    obtain ⟨l, hl, hj⟩ := List.mem_map.mp ha
    exact ⟨l, hl, List.mem_of_getElem? hj⟩
  · intro ⟨l, hl, ha⟩
    obtain ⟨j, hj⟩ := List.mem_iff_getElem?.mp ha
    have hmem := mem_take_tiers hl hj (Nat.lt_succ_self j)
    obtain ⟨tier, htier, htaken⟩ := List.mem_flatten.mp hmem
    exact List.mem_flatten.mpr ⟨tier, List.mem_of_mem_take htier, htaken⟩

/-- Where the bound allows `k` from each list, nothing ranked below `k` is left out. -/
theorem mem_take_fresh_of_rank [DecidableEq α] {seen : Finset α} {bound : Nat} (hl : l ∈ lists)
    (ha : l[j]? = some a) (hj : j < k) (hbound : k * lists.length ≤ bound) (hseen : a ∉ seen) :
    a ∈ (fresh seen (zipLongest lists).flatten).take bound := by
  have hitem : some a ∈ (zipLongest lists).flatten.take
      ((zipLongest lists).take k).flatten.length := by
    have hsplit : (zipLongest lists).flatten =
        ((zipLongest lists).take k).flatten ++ ((zipLongest lists).drop k).flatten := by
      rw [← List.flatten_append, List.take_append_drop]
    rw [hsplit, List.take_left]
    exact mem_take_tiers hl ha hj
  exact mem_take_fresh ((length_take_tiers_le lists k).trans hbound) hitem hseen

end Tiers

section Ranks
variable [DecidableEq α] [LinearOrder β] {key : α → β} {l : List α} {a : α} {j : Nat}

/-- In a list sorted by a key, as many items come before one as have a smaller key. -/
theorem card_filter_key_lt (hl : l.Pairwise fun x y => key x < key y) (ha : l[j]? = some a) :
    (l.toFinset.filter fun x => key x < key a).card = j := by
  induction l generalizing j with
  | nil => simp at ha
  | cons x l ih =>
      rw [List.pairwise_cons] at hl
      cases j with
      | zero =>
          have hxa : x = a := by simpa using ha
          rw [← hxa, Finset.card_eq_zero, Finset.filter_eq_empty_iff]
          intro y hy
          rw [List.mem_toFinset, List.mem_cons] at hy
          obtain rfl | hy := hy
          · exact lt_irrefl _
          · exact (hl.1 y hy).asymm
      | succ j =>
          rw [List.getElem?_cons_succ] at ha
          have hxa := hl.1 a (List.mem_of_getElem? ha)
          have hx : x ∉ l.toFinset.filter fun y => key y < key a := by
            intro hmem
            have hxl := List.mem_toFinset.mp (Finset.mem_filter.mp hmem).1
            exact lt_irrefl _ (hl.1 x hxl)
          rw [List.toFinset_cons, Finset.filter_insert, if_pos hxa,
            Finset.card_insert_of_notMem hx, ih hl.2 ha]

end Ranks

end LocalGraphRag.Sequences
