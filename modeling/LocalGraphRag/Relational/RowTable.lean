import Mathlib.Data.List.Nodup

/-!
# Tables with a nullable key

A primary key that is not the rowid may be `NULL`, and then it is not unique. The
rows stand in the order of their rowids, and the keys that are not `NULL` differ.
-/

namespace LocalGraphRag.Relational

/-- SQL equality: `NULL` is equal to nothing. -/
def SqlEq {α : Type} (a b : Option α) : Prop := ∃ x, a = some x ∧ b = some x

instance {α : Type} [DecidableEq α] (a b : Option α) : Decidable (SqlEq a b) :=
  decidable_of_iff (a = b ∧ a.isSome) (by
    unfold SqlEq
    constructor
    · rintro ⟨rfl, h⟩
      obtain ⟨x, rfl⟩ := Option.isSome_iff_exists.mp h
      exact ⟨x, rfl, rfl⟩
    · rintro ⟨x, rfl, rfl⟩
      exact ⟨rfl, rfl⟩)

theorem sqlEq_some {α : Type} {a : Option α} {x : α} : SqlEq a (some x) ↔ a = some x := by
  simp [SqlEq]

/-- The rows of a table; `key` is `none` where a column of the key is `NULL`. -/
structure RowTable (Row : Type) {Key : Type} (key : Row → Option Key) where
  rows : List Row
  keyed : (rows.filterMap key).Nodup

namespace RowTable
variable {Row Key : Type} {key : Row → Option Key}

@[ext] theorem ext {t u : RowTable Row key} (h : t.rows = u.rows) : t = u := by
  cases t; cases u; simp_all

instance : Membership Row (RowTable Row key) := ⟨fun t r => r ∈ t.rows⟩

instance (t : RowTable Row key) (p : Row → Prop) [DecidablePred p] :
    Decidable (∀ r ∈ t, p r) := inferInstanceAs (Decidable (∀ r ∈ t.rows, p r))

instance (t : RowTable Row key) (p : Row → Prop) [DecidablePred p] :
    Decidable (∃ r ∈ t, p r) := inferInstanceAs (Decidable (∃ r ∈ t.rows, p r))

instance : EmptyCollection (RowTable Row key) := ⟨⟨[], by simp⟩⟩

@[simp] theorem mem_rows (t : RowTable Row key) (r : Row) : r ∈ t.rows ↔ r ∈ t := Iff.rfl

theorem eq_of_nodup_filterMap {rows : List Row} (h : (rows.filterMap key).Nodup)
    {r r' : Row} {k : Key} (hr : r ∈ rows) (hr' : r' ∈ rows) (hk : key r = some k)
    (hk' : key r' = some k) : r = r' := by
  induction rows with
  | nil => cases hr
  | cons x rows ih =>
      -- a later row with the key of `x` would repeat that key
      have hlater : ∀ y ∈ rows, key y = some k → key x ≠ some k := by
        intro y hy hyk hxk
        rw [List.filterMap_cons_some hxk, List.nodup_cons] at h
        exact h.1 (List.mem_filterMap.mpr ⟨y, hy, hyk⟩)
      have htail : (rows.filterMap key).Nodup :=
        h.sublist ((List.sublist_cons_self x rows).filterMap key)
      obtain rfl | h₁ := List.mem_cons.mp hr
      · obtain rfl | h₂ := List.mem_cons.mp hr'
        · rfl
        · exact absurd hk (hlater r' h₂ hk')
      · obtain rfl | h₂ := List.mem_cons.mp hr'
        · exact absurd hk' (hlater r h₁ hk)
        · exact ih htail h₁ h₂

/-- Two rows with one key that is not `NULL` are the same row. -/
theorem eq_of_key (t : RowTable Row key) {r r' : Row} {k : Key} (h : r ∈ t) (h' : r' ∈ t)
    (hk : key r = some k) (hk' : key r' = some k) : r = r' :=
  eq_of_nodup_filterMap t.keyed h h' hk hk'

/-- A table of one row. -/
def single (r : Row) : RowTable Row key where
  rows := [r]
  keyed := by
    cases h : key r with
    | none => simp [h]
    | some k => simp [h]

/-- `DELETE FROM t WHERE p`. -/
def deleteWhere (t : RowTable Row key) (p : Row → Prop) [DecidablePred p] :
    RowTable Row key where
  rows := t.rows.filter fun r => ¬ p r
  keyed := t.keyed.sublist ((List.filter_sublist (p := fun r => ¬ p r)).filterMap key)

@[simp] theorem mem_deleteWhere (t : RowTable Row key) (p : Row → Prop) [DecidablePred p]
    (r : Row) : r ∈ t.deleteWhere p ↔ r ∈ t ∧ ¬ p r := by
  simp [← mem_rows, deleteWhere]

/-- `UPDATE t SET row := f row WHERE p`, for an update that leaves the key alone. -/
def updateWhere (t : RowTable Row key) (p : Row → Prop) [DecidablePred p] (f : Row → Row)
    (hf : ∀ x, key (f x) = key x) : RowTable Row key where
  rows := t.rows.map fun r => if p r then f r else r
  keyed := by
    have hkey : (key ∘ fun r => if p r then f r else r) = key := by
      funext r
      simp only [Function.comp_apply]
      split_ifs
      · exact hf r
      · rfl
    rw [List.filterMap_map, hkey]
    exact t.keyed

theorem mem_updateWhere (t : RowTable Row key) (p : Row → Prop) [DecidablePred p]
    (f : Row → Row) (hf : ∀ x, key (f x) = key x) (r : Row) :
    r ∈ t.updateWhere p f hf ↔ ∃ x ∈ t, r = if p x then f x else x := by
  rw [← mem_rows]
  simp only [updateWhere, List.mem_map, mem_rows, eq_comm]

end RowTable

end LocalGraphRag.Relational
