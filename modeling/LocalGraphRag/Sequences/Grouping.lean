import Mathlib.Data.List.Induction
import Mathlib.Data.List.Nodup

/-!
# Dictionaries that a loop fills

A dictionary is the list of its entries in the order in which their keys came. A loop either
puts an item at the end of the list of its key, so that a key has its items in their order in
the end, or at its key, so that a key has its last item.
-/

namespace LocalGraphRag.Sequences

variable {κ α β : Type} [DecidableEq κ] [BEq κ] [LawfulBEq κ]

/-- `entries[k] = f(entries.get(k))`. -/
def alter (f : Option β → β) (k : κ) : List (κ × β) → List (κ × β)
  | [] => [(k, f none)]
  | (j, y) :: entries =>
      if j = k then (j, f (some y)) :: entries else (j, y) :: alter f k entries

theorem lookup_entry (i : κ) (y : β) (entries : List (κ × β)) (j : κ) :
    ((i, y) :: entries).lookup j = if j = i then some y else entries.lookup j := by
  rw [List.lookup_cons]
  by_cases hj : j = i
  · rw [if_pos hj, hj, beq_self_eq_true]
  · rw [if_neg hj, beq_false_of_ne hj]

theorem lookup_alter (f : Option β → β) (k : κ) (entries : List (κ × β)) (j : κ) :
    (alter f k entries).lookup j =
      if j = k then some (f (entries.lookup k)) else entries.lookup j := by
  induction entries with
  | nil => exact lookup_entry k (f none) [] j
  | cons entry entries ih =>
      obtain ⟨i, y⟩ := entry
      rw [alter]
      by_cases hi : i = k
      · subst hi
        by_cases hj : j = i <;> simp [lookup_entry, hj]
      · rw [if_neg hi, lookup_entry, ih, lookup_entry, lookup_entry]
        by_cases hj : j = i
        · subst hj
          simp [hi]
        · simp [hj, Ne.symm hi]

theorem keys_alter (f : Option β → β) (k : κ) (entries : List (κ × β)) :
    (alter f k entries).map Prod.fst =
      if k ∈ entries.map Prod.fst then entries.map Prod.fst else entries.map Prod.fst ++ [k] := by
  induction entries with
  | nil => rfl
  | cons entry entries ih =>
      obtain ⟨i, y⟩ := entry
      rw [alter]
      by_cases hi : i = k
      · simp [hi]
      · rw [if_neg hi, List.map_cons, ih]
        by_cases hk : k ∈ entries.map Prod.fst
        · simp [hk]
        · simp [hk, Ne.symm hi]

theorem nodup_keys_alter {f : Option β → β} {k : κ} {entries : List (κ × β)}
    (h : (entries.map Prod.fst).Nodup) : ((alter f k entries).map Prod.fst).Nodup := by
  rw [keys_alter]
  split_ifs with hk
  · exact h
  · rw [← List.concat_eq_append]
    exact h.concat hk

/-- The key is one of the dictionary. -/
theorem mem_keys_iff {entries : List (κ × β)} {k : κ} :
    k ∈ entries.map Prod.fst ↔ ∃ y, entries.lookup k = some y := by
  induction entries with
  | nil => simp
  | cons entry entries ih =>
      obtain ⟨i, y⟩ := entry
      rw [List.map_cons, List.mem_cons, ih]
      simp only [lookup_entry]
      by_cases hk : k = i
      · simp [hk]
      · simp [hk]

section Loops
variable (key : α → Option κ)

/-- Put the item at the end of the list of its key, if it has one. -/
def appendItem (groups : List (κ × List α)) (x : α) : List (κ × List α) :=
  match key x with
  | none => groups
  | some k => alter (fun xs => xs.getD [] ++ [x]) k groups

/-- Put the item at its key, if it has one. -/
def assignItem (entries : List (κ × α)) (x : α) : List (κ × α) :=
  match key x with
  | none => entries
  | some k => alter (fun _ => x) k entries

theorem lookup_appendItem (groups : List (κ × List α)) (x : α) (k : κ) :
    (appendItem key groups x).lookup k =
      if key x = some k then some ((groups.lookup k).getD [] ++ [x]) else groups.lookup k := by
  rw [appendItem]
  cases hx : key x with
  | none => simp
  | some j =>
      rw [lookup_alter]
      by_cases hj : k = j
      · simp [hj]
      · simp [hj, Ne.symm hj]

/-- The items of a key, of which there is one if it has an entry. -/
theorem lookup_foldl_appendItem (items : List α) (k : κ) :
    (items.foldl (appendItem key) []).lookup k =
      if items.filter (fun x => key x = some k) = [] then none
      else some (items.filter fun x => key x = some k) := by
  induction items using List.reverseRecOn with
  | nil => rfl
  | append_singleton items x ih =>
      rw [List.foldl_append, List.foldl_cons, List.foldl_nil, lookup_appendItem, ih,
        List.filter_append]
      by_cases hx : key x = some k
      · by_cases hnil : items.filter (fun x => key x = some k) = []
        · simp [hx, hnil]
        · simp [hx, hnil]
      · simp [hx]

/-- The last item of a key. -/
theorem lookup_foldl_assignItem (items : List α) (k : κ) :
    (items.foldl (assignItem key) []).lookup k =
      (items.filter fun x => key x = some k).getLast? := by
  induction items using List.reverseRecOn with
  | nil => rfl
  | append_singleton items x ih =>
      rw [List.foldl_append, List.foldl_cons, List.foldl_nil, List.filter_append, assignItem]
      cases hx : key x with
      | none => simp [hx, ih]
      | some j =>
          dsimp only
          rw [lookup_alter]
          by_cases hj : k = j
          · simp [hx, hj]
          · simp [hx, hj, Ne.symm hj, ih]

theorem nodup_keys_foldl_assignItem (items : List α) :
    ((items.foldl (assignItem key) []).map Prod.fst).Nodup := by
  induction items using List.reverseRecOn with
  | nil => exact List.nodup_nil
  | append_singleton items x ih =>
      rw [List.foldl_append, List.foldl_cons, List.foldl_nil, assignItem]
      cases key x with
      | none => exact ih
      | some j => exact nodup_keys_alter ih

end Loops

end LocalGraphRag.Sequences
