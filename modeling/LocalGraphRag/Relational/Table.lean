import Mathlib.Algebra.BigOperators.Group.Finset.Basic
import Mathlib.Data.Finset.Max
import Mathlib.Data.List.Sort
import Mathlib.Data.Finset.Prod

/-!
# Keyed tables

A table is a finite set of rows on which the primary key is injective. The
statements of a relational store become operations that preserve the key, and
each has a membership lemma, so later proofs read rows and not sets.

## Implementation notes

Rows are a `Finset`, so equality of tables is equality of their rows whatever
the order of insertion. `fetchOne` is `ORDER BY ... LIMIT 1`: the least element
for an order that the caller encodes in the element type, and `orderBy` lists all.
-/

namespace LocalGraphRag.Relational

/-- The row a query with `LIMIT 1` returns, ordered by the element type. -/
def fetchOne {α : Type} [LinearOrder α] (s : Finset α) : Option α := s.min

theorem fetchOne_eq_some_iff {α : Type} [LinearOrder α] {s : Finset α} {a : α} :
    fetchOne s = some a ↔ a ∈ s ∧ ∀ b ∈ s, a ≤ b := by
  constructor
  · intro h
    exact ⟨Finset.mem_of_min h, fun b hb => Finset.min_le_of_eq hb h⟩
  · rintro ⟨ha, hle⟩
    have hmin : s.min = (a : WithTop α) := le_antisymm (Finset.min_le ha)
      (Finset.le_min fun b hb => WithTop.coe_le_coe.mpr (hle b hb))
    exact hmin

theorem fetchOne_eq_none_iff {α : Type} [LinearOrder α] {s : Finset α} :
    fetchOne s = none ↔ s = ∅ := Finset.min_eq_top

/-- The elements in increasing order, by a sort that the kernel can run. -/
def orderBy {α : Type} [LinearOrder α] (s : Finset α) : List α :=
  Quot.liftOn s.val (fun l => l.insertionSort (· ≤ ·)) fun a b h =>
    List.Perm.eq_of_pairwise' (List.pairwise_insertionSort (· ≤ ·) a)
      (List.pairwise_insertionSort (· ≤ ·) b)
      (((List.perm_insertionSort (· ≤ ·) a).trans h).trans
        (List.perm_insertionSort (· ≤ ·) b).symm)

@[simp] theorem mem_orderBy {α : Type} [LinearOrder α] {s : Finset α} {a : α} :
    a ∈ orderBy s ↔ a ∈ s := by
  obtain ⟨⟨l⟩, hl⟩ := s
  exact (List.perm_insertionSort (· ≤ ·) l).mem_iff

theorem nodup_orderBy {α : Type} [LinearOrder α] (s : Finset α) : (orderBy s).Nodup := by
  obtain ⟨⟨l⟩, hl⟩ := s
  exact (List.perm_insertionSort (· ≤ ·) l).nodup_iff.mpr hl

theorem pairwise_orderBy {α : Type} [LinearOrder α] (s : Finset α) :
    (orderBy s).Pairwise (· < ·) := by
  have hle : (orderBy s).Pairwise (· ≤ ·) := by
    obtain ⟨⟨l⟩, hl⟩ := s
    exact List.pairwise_insertionSort (· ≤ ·) l
  exact (hle.and (nodup_orderBy s)).imp fun h => lt_of_le_of_ne h.1 h.2

/-- The sums of the groups with `p`, by `GROUP BY`, are the sum of their rows. -/
theorem sum_groups {Row Key M : Type} [LinearOrder Key] [DecidableEq Key] [AddCommMonoid M]
    (s : Finset Row) (key : Row → Key) (value : Row → M) (p : Key → Prop) [DecidablePred p] :
    (((orderBy (s.image key)).filter p).map fun k => ∑ r ∈ s with key r = k, value r).sum =
      ∑ r ∈ s with p (key r), value r := by
  have hnodup : ((orderBy (s.image key)).filter p).Nodup := (nodup_orderBy _).filter _
  have hkeys : ((orderBy (s.image key)).filter p).toFinset =
      (s.filter fun r => p (key r)).image key := by
    ext k
    simp only [List.mem_toFinset, List.mem_filter, mem_orderBy, Finset.mem_image,
      Finset.mem_filter, decide_eq_true_eq]
    constructor
    · intro ⟨⟨r, hr, hk⟩, hp⟩
      exact ⟨r, ⟨hr, hk ▸ hp⟩, hk⟩
    · intro ⟨r, ⟨hr, hp⟩, hk⟩
      exact ⟨⟨r, hr, hk⟩, hk ▸ hp⟩
  calc
    (((orderBy (s.image key)).filter p).map fun k => ∑ r ∈ s with key r = k, value r).sum =
        ∑ k ∈ (s.filter fun r => p (key r)).image key, ∑ r ∈ s with key r = k, value r := by
      rw [← hkeys, List.sum_toFinset _ hnodup]
    _ = ∑ k ∈ (s.filter fun r => p (key r)).image key,
          ∑ r ∈ s.filter (fun r => p (key r)) with key r = k, value r := by
      apply Finset.sum_congr rfl
      intro k hk
      obtain ⟨r, hr, rfl⟩ := Finset.mem_image.mp hk
      rw [Finset.filter_filter]
      apply Finset.sum_congr _ fun _ _ => rfl
      apply Finset.filter_congr
      intro r' _
      exact ⟨fun heq => ⟨heq ▸ (Finset.mem_filter.mp hr).2, heq⟩, fun h => h.2⟩
    _ = ∑ r ∈ s with p (key r), value r :=
      Finset.sum_fiberwise_of_maps_to (fun r hr => Finset.mem_image_of_mem key hr) value

/-- A finite set of rows with a primary key. -/
structure Table (Row : Type) {Key : Type} (key : Row → Key) where
  rows : Finset Row
  keyed : Set.InjOn key (rows : Set Row)

section KeyedLists
variable {Row Key : Type} [DecidableEq Key] {key : Row → Key} {rows rows' : List Row}

/-- A lookup in a list of rows with distinct keys. -/
theorem find?_key_eq_some_iff (hkeys : (rows.map key).Nodup) (k : Key) (r : Row) :
    (rows.find? fun x => key x = k) = some r ↔ r ∈ rows ∧ key r = k := by
  constructor
  · intro h
    exact ⟨List.mem_of_find?_eq_some h, by simpa using List.find?_some h⟩
  · rintro ⟨hr, rfl⟩
    have hsome : (rows.find? fun x => key x = key r).isSome := by
      rw [List.find?_isSome]
      exact ⟨r, hr, decide_eq_true rfl⟩
    have hmem := List.get_find?_mem hsome
    have hkey := by simpa using List.find?_some (Option.some_get hsome).symm
    rw [← Option.some_get hsome, List.inj_on_of_nodup_map hkeys hmem hr hkey]

/-- The lookup does not depend on the order of the rows. -/
theorem find?_key_perm (hperm : rows.Perm rows') (hkeys : (rows.map key).Nodup) (k : Key) :
    (rows.find? fun x => key x = k) = rows'.find? fun x => key x = k := by
  have hkeys' : (rows'.map key).Nodup := (hperm.map key).nodup_iff.mp hkeys
  ext r
  rw [find?_key_eq_some_iff hkeys, find?_key_eq_some_iff hkeys', hperm.mem_iff]

end KeyedLists

namespace Table

variable {Row Key : Type} {key : Row → Key}

@[ext] theorem ext {t u : Table Row key} (h : t.rows = u.rows) : t = u := by
  cases t; cases u; simp_all

instance [DecidableEq Row] : DecidableEq (Table Row key) := fun t u =>
  decidable_of_iff (t.rows = u.rows) ⟨ext, fun h => by rw [h]⟩

instance : Membership Row (Table Row key) := ⟨fun t r => r ∈ t.rows⟩

instance [DecidableEq Row] (r : Row) (t : Table Row key) : Decidable (r ∈ t) :=
  inferInstanceAs (Decidable (r ∈ t.rows))

instance (t : Table Row key) (p : Row → Prop) [DecidablePred p] :
    Decidable (∀ r ∈ t, p r) := inferInstanceAs (Decidable (∀ r ∈ t.rows, p r))

instance (t : Table Row key) (p : Row → Prop) [DecidablePred p] :
    Decidable (∃ r ∈ t, p r) := inferInstanceAs (Decidable (∃ r ∈ t.rows, p r))

instance : EmptyCollection (Table Row key) := ⟨⟨∅, by simp⟩⟩

@[simp] theorem mem_rows (t : Table Row key) (r : Row) : r ∈ t.rows ↔ r ∈ t := Iff.rfl

@[simp] theorem rows_empty : (∅ : Table Row key).rows = ∅ := rfl

@[simp] theorem notMem_empty (r : Row) : r ∉ (∅ : Table Row key) := by
  simp [← mem_rows]

/-- Two rows of a table with one key are the same row. -/
theorem eq_of_key (t : Table Row key) {r r' : Row} (h : r ∈ t) (h' : r' ∈ t)
    (hk : key r = key r') : r = r' := t.keyed h h' hk

theorem ext_mem {t u : Table Row key} (h : ∀ r, r ∈ t ↔ r ∈ u) : t = u :=
  ext (Finset.ext h)

section Statements
variable [DecidableEq Row] [DecidableEq Key]

/-- `SELECT * FROM t WHERE p`. -/
def select (t : Table Row key) (p : Row → Prop) [DecidablePred p] : Finset Row :=
  t.rows.filter p

omit [DecidableEq Row] [DecidableEq Key] in
@[simp] theorem mem_select (t : Table Row key) (p : Row → Prop) [DecidablePred p]
    (r : Row) : r ∈ t.select p ↔ r ∈ t ∧ p r := by
  simp [select]

/-- `DELETE FROM t WHERE p`. -/
def deleteWhere (t : Table Row key) (p : Row → Prop) [DecidablePred p] :
    Table Row key where
  rows := t.rows.filter fun r => ¬ p r
  keyed := t.keyed.mono (by
    intro r hr
    exact Finset.mem_of_mem_filter r hr)

omit [DecidableEq Row] [DecidableEq Key] in
@[simp] theorem mem_deleteWhere (t : Table Row key) (p : Row → Prop) [DecidablePred p]
    (r : Row) : r ∈ t.deleteWhere p ↔ r ∈ t ∧ ¬ p r := by
  simp [← mem_rows, deleteWhere]

/-- `INSERT OR REPLACE INTO t VALUES (r)`: a row with the key of `r` is removed. -/
def insertOrReplace (t : Table Row key) (r : Row) : Table Row key where
  rows := insert r (t.rows.filter fun x => key x ≠ key r)
  keyed := by
    intro x hx y hy hxy
    simp only [Finset.coe_insert, Finset.coe_filter, Set.mem_insert_iff,
      Set.mem_ofPred_eq] at hx hy
    obtain rfl | ⟨hx, hxr⟩ := hx <;> rcases hy with rfl | ⟨hy, hyr⟩
    · rfl
    · exact absurd hxy.symm hyr
    · exact absurd hxy hxr
    · exact t.keyed hx hy hxy

@[simp] theorem mem_insertOrReplace (t : Table Row key) (r x : Row) :
    x ∈ t.insertOrReplace r ↔ x = r ∨ (x ∈ t ∧ key x ≠ key r) := by
  simp [← mem_rows, insertOrReplace]

/-- `INSERT OR IGNORE INTO t VALUES (r)`: a row with the key of `r` is kept. -/
def insertOrIgnore (t : Table Row key) (r : Row) : Table Row key :=
  if h : ∃ x ∈ t.rows, key x = key r then t
  else
    { rows := insert r t.rows
      keyed := by
        intro x hx y hy hxy
        simp only [Finset.coe_insert, Set.mem_insert_iff] at hx hy
        obtain rfl | hx := hx <;> rcases hy with rfl | hy
        · rfl
        · exact absurd ⟨y, hy, hxy.symm⟩ h
        · exact absurd ⟨x, hx, hxy⟩ h
        · exact t.keyed hx hy hxy }

theorem mem_insertOrIgnore (t : Table Row key) (r x : Row) :
    x ∈ t.insertOrIgnore r ↔ x ∈ t ∨ (x = r ∧ ∀ y ∈ t, key y ≠ key r) := by
  unfold insertOrIgnore
  split_ifs with h
  · obtain ⟨y, hy, hyr⟩ := h
    constructor
    · exact Or.inl
    · rintro (hx | ⟨-, hn⟩)
      · exact hx
      · exact absurd hyr (hn y hy)
  · have hn : ∀ y ∈ t, key y ≠ key r := fun y hy hyr => h ⟨y, hy, hyr⟩
    rw [← mem_rows]
    simp only [Finset.mem_insert, mem_rows]
    constructor
    · rintro (rfl | hx)
      · exact Or.inr ⟨rfl, hn⟩
      · exact Or.inl hx
    · rintro (hx | ⟨rfl, -⟩)
      · exact Or.inr hx
      · exact Or.inl rfl

/-- `INSERT INTO t VALUES (r)`, which raises on a key that the table has. -/
def insertNew (t : Table Row key) (r : Row) : Option (Table Row key) :=
  if ∃ x ∈ t, key x = key r then none else some (t.insertOrIgnore r)

theorem insertNew_eq_some_iff {t u : Table Row key} {r : Row} :
    t.insertNew r = some u ↔ (∀ x ∈ t, key x ≠ key r) ∧ t.insertOrIgnore r = u := by
  unfold insertNew
  split_ifs with h
  · obtain ⟨x, hx, hxr⟩ := h
    constructor
    · intro h
      cases h
    · intro h
      exact absurd hxr (h.1 x hx)
  · rw [Option.some.injEq, iff_and_self]
    intro _ x hx hxr
    exact h ⟨x, hx, hxr⟩

/-- `UPDATE t SET row := f row WHERE p`, for an update that leaves the key alone. -/
def updateWhere (t : Table Row key) (p : Row → Prop) [DecidablePred p] (f : Row → Row)
    (hf : ∀ x, key (f x) = key x) : Table Row key where
  rows := t.rows.image fun x => if p x then f x else x
  keyed := by
    have hkey : ∀ x, key (if p x then f x else x) = key x := by
      intro x
      split_ifs
      · exact hf x
      · rfl
    intro x hx y hy hxy
    simp only [Finset.coe_image, Set.mem_image] at hx hy
    obtain ⟨x, hx, rfl⟩ := hx
    obtain ⟨y, hy, rfl⟩ := hy
    rw [hkey, hkey] at hxy
    rw [t.keyed hx hy hxy]

omit [DecidableEq Key] in
theorem mem_updateWhere (t : Table Row key) (p : Row → Prop) [DecidablePred p]
    (f : Row → Row) (hf : ∀ x, key (f x) = key x) (r : Row) :
    r ∈ t.updateWhere p f hf ↔ ∃ x ∈ t, r = if p x then f x else x := by
  rw [← mem_rows]
  simp only [updateWhere, Finset.mem_image, mem_rows, eq_comm]

omit [DecidableEq Key] in
/-- An update leaves the keys alone. -/
theorem exists_key_updateWhere (t : Table Row key) (p : Row → Prop) [DecidablePred p]
    (f : Row → Row) (hf : ∀ x, key (f x) = key x) (k : Key) :
    (∃ x ∈ t.updateWhere p f hf, key x = k) ↔ ∃ x ∈ t, key x = k := by
  have hkey : ∀ x, key (if p x then f x else x) = key x := by
    intro x
    split_ifs
    · exact hf x
    · rfl
  constructor
  · rintro ⟨y, hy, rfl⟩
    obtain ⟨x, hx, rfl⟩ := (mem_updateWhere ..).mp hy
    exact ⟨x, hx, (hkey x).symm⟩
  · rintro ⟨x, hx, rfl⟩
    exact ⟨_, (mem_updateWhere ..).mpr ⟨x, hx, rfl⟩, hkey x⟩

omit [DecidableEq Key] in
/-- A second update that overwrites what the first one wrote makes it vanish. -/
theorem updateWhere_updateWhere (t : Table Row key) (p q : Row → Prop) [DecidablePred p]
    [DecidablePred q] (f g : Row → Row) (hf : ∀ x, key (f x) = key x)
    (hg : ∀ x, key (g x) = key x)
    (h : ∀ x, (if q (if p x then f x else x) then g (if p x then f x else x)
      else if p x then f x else x) = if q x then g x else x) :
    (t.updateWhere p f hf).updateWhere q g hg = t.updateWhere q g hg := by
  apply ext_mem
  intro r
  rw [mem_updateWhere, mem_updateWhere]
  constructor
  · rintro ⟨y, hy, rfl⟩
    obtain ⟨x, hx, rfl⟩ := (mem_updateWhere ..).mp hy
    exact ⟨x, hx, h x⟩
  · rintro ⟨x, hx, rfl⟩
    exact ⟨_, (mem_updateWhere ..).mpr ⟨x, hx, rfl⟩, (h x).symm⟩

omit [DecidableEq Key] in
/-- What an update leaves alone of every row is the same before and after. -/
theorem image_updateWhere {α : Type} [DecidableEq α] (t : Table Row key) (p : Row → Prop)
    [DecidablePred p] (f : Row → Row) (hf : ∀ x, key (f x) = key x) (g : Row → α)
    (hg : ∀ x, g (f x) = g x) : (t.updateWhere p f hf).rows.image g = t.rows.image g := by
  have hsame : (g ∘ fun x => if p x then f x else x) = g := by
    funext x
    rw [Function.comp_apply, apply_ite g, hg, ite_self]
  rw [updateWhere, Finset.image_image, hsame]

/-- `INSERT INTO t VALUES (r) ON CONFLICT DO UPDATE SET row := f row`. -/
def upsert (t : Table Row key) (r : Row) (f : Row → Row)
    (hf : ∀ x, key (f x) = key x) : Table Row key :=
  (t.updateWhere (fun x => key x = key r) f hf).insertOrIgnore r

theorem mem_upsert (t : Table Row key) (r : Row) (f : Row → Row)
    (hf : ∀ x, key (f x) = key x) (y : Row) :
    y ∈ t.upsert r f hf ↔
      (∃ x ∈ t, key x = key r ∧ y = f x) ∨ (y ∈ t ∧ key y ≠ key r) ∨
        (y = r ∧ ∀ x ∈ t, key x ≠ key r) := by
  have hkey : (∀ z ∈ t.updateWhere (fun x => key x = key r) f hf, key z ≠ key r) ↔
      ∀ x ∈ t, key x ≠ key r := by
    constructor
    · intro h x hx hxr
      apply h (f x) ((mem_updateWhere ..).mpr ⟨x, hx, by simp [hxr]⟩)
      rw [hf, hxr]
    · intro h z hz
      obtain ⟨x, hx, rfl⟩ := (mem_updateWhere ..).mp hz
      simp [h x hx]
  rw [upsert, mem_insertOrIgnore, hkey, mem_updateWhere]
  constructor
  · rintro (⟨x, hx, rfl⟩ | h)
    · by_cases hxr : key x = key r
      · exact Or.inl ⟨x, hx, hxr, by simp [hxr]⟩
      · exact Or.inr (Or.inl ⟨by simpa [hxr] using hx, by simp [hxr]⟩)
    · exact Or.inr (Or.inr h)
  · rintro (⟨x, hx, hxr, rfl⟩ | ⟨hy, hyr⟩ | h)
    · exact Or.inl ⟨x, hx, by simp [hxr]⟩
    · exact Or.inl ⟨y, hy, by simp [hyr]⟩
    · exact Or.inr h

/-- An upsert adds the key of its row and keeps all others. -/
theorem exists_key_upsert (t : Table Row key) (r : Row) (f : Row → Row)
    (hf : ∀ x, key (f x) = key x) (k : Key) :
    (∃ x ∈ t.upsert r f hf, key x = k) ↔ (∃ x ∈ t, key x = k) ∨ k = key r := by
  have hupdated := exists_key_updateWhere t (fun x => key x = key r) f hf
  constructor
  · rintro ⟨x, hx, rfl⟩
    obtain hx | ⟨rfl, -⟩ := (mem_insertOrIgnore ..).mp hx
    · exact Or.inl ((hupdated _).mp ⟨x, hx, rfl⟩)
    · exact Or.inr rfl
  · rintro (h | rfl)
    · obtain ⟨x, hx, hk⟩ := (hupdated k).mpr h
      exact ⟨x, (mem_insertOrIgnore ..).mpr (Or.inl hx), hk⟩
    · by_cases h : ∃ x ∈ t.updateWhere (fun x => key x = key r) f hf, key x = key r
      · obtain ⟨x, hx, hk⟩ := h
        exact ⟨x, (mem_insertOrIgnore ..).mpr (Or.inl hx), hk⟩
      · refine ⟨r, (mem_insertOrIgnore ..).mpr (Or.inr ⟨rfl, fun y hy hk => ?_⟩), rfl⟩
        exact h ⟨y, hy, hk⟩

/-- The row with a key. -/
def find? (t : Table Row key) (k : Key) : Option Row :=
  if h : ∃ r ∈ t.rows, key r = k then
    some (t.rows.choose (fun r => key r = k) (by
      obtain ⟨r, hr, hk⟩ := h
      exact ⟨r, ⟨hr, hk⟩, fun y hy => t.keyed hy.1 hr (hy.2.trans hk.symm)⟩))
  else none

omit [DecidableEq Row] in
theorem find?_eq_some_iff (t : Table Row key) (k : Key) (r : Row) :
    t.find? k = some r ↔ r ∈ t ∧ key r = k := by
  unfold find?
  split_ifs with h
  · have hchoose := Finset.choose_spec (fun r => key r = k) t.rows (by
      obtain ⟨r, hr, hk⟩ := h
      exact ⟨r, ⟨hr, hk⟩, fun y hy => t.keyed hy.1 hr (hy.2.trans hk.symm)⟩)
    rw [Option.some.injEq]
    constructor
    · rintro rfl
      exact hchoose
    · rintro ⟨hr, hk⟩
      exact t.keyed hchoose.1 hr (hchoose.2.trans hk.symm)
  · simp only [false_iff]
    rintro ⟨hr, hk⟩
    exact h ⟨r, hr, hk⟩

omit [DecidableEq Row] in
/-- The rows found for keys of the table have these keys. -/
theorem map_key_find (t : Table Row key) {keys : List Key} (h : ∀ k ∈ keys, ∃ r ∈ t, key r = k) :
    (keys.filterMap t.find?).map key = keys := by
  have hfind : ∀ k ∈ keys, (t.find? k).map key = some k := by
    intro k hk
    obtain ⟨r, hr, rfl⟩ := h k hk
    rw [(t.find?_eq_some_iff (key r) r).mpr ⟨hr, rfl⟩, Option.map_some]
  rw [List.map_filterMap, List.filterMap_congr hfind, List.filterMap_some]

end Statements

section Scan
variable [DecidableEq Row] [LinearOrder Key]

/-- `SELECT * FROM t`, in the order of the primary key. -/
def scan (t : Table Row key) : List Row := (orderBy (t.rows.image key)).filterMap t.find?

omit [DecidableEq Row] in
@[simp] theorem mem_scan (t : Table Row key) (r : Row) : r ∈ t.scan ↔ r ∈ t := by
  simp only [scan, List.mem_filterMap, mem_orderBy, Finset.mem_image, find?_eq_some_iff]
  constructor
  · rintro ⟨_, -, hr, -⟩
    exact hr
  · exact fun hr => ⟨key r, ⟨r, hr, rfl⟩, hr, rfl⟩

omit [DecidableEq Row] in
theorem map_key_scan (t : Table Row key) : t.scan.map key = orderBy (t.rows.image key) :=
  t.map_key_find fun _ hk => Finset.mem_image.mp (mem_orderBy.mp hk)

end Scan

section Bulk
variable [DecidableEq Row] [DecidableEq Key]

/-- `executemany` of a statement: one row after the other. -/
def insertAllOrReplace (t : Table Row key) (l : List Row) : Table Row key :=
  l.foldl insertOrReplace t

/-- `executemany` of `INSERT OR IGNORE`. -/
def insertAllOrIgnore (t : Table Row key) (l : List Row) : Table Row key :=
  l.foldl insertOrIgnore t

/-- Replacing rows with distinct keys leaves exactly them and the untouched keys. -/
theorem mem_insertAllOrReplace {t : Table Row key} {l : List Row}
    (hl : (l.map key).Nodup) (x : Row) :
    x ∈ t.insertAllOrReplace l ↔ x ∈ l ∨ (x ∈ t ∧ key x ∉ l.map key) := by
  induction l generalizing t with
  | nil => simp [insertAllOrReplace]
  | cons r l ih =>
      simp only [List.map_cons, List.nodup_cons] at hl
      change x ∈ (t.insertOrReplace r).insertAllOrReplace l ↔ _
      rw [ih hl.2, mem_insertOrReplace]
      simp only [List.mem_cons, List.map_cons, not_or]
      constructor
      · rintro (hx | ⟨rfl | ⟨hx, hxr⟩, hn⟩)
        · exact Or.inl (Or.inr hx)
        · exact Or.inl (Or.inl rfl)
        · exact Or.inr ⟨hx, hxr, hn⟩
      · rintro ((rfl | hx) | ⟨hx, hxr, hn⟩)
        · exact Or.inr ⟨Or.inl rfl, hl.1⟩
        · exact Or.inl hx
        · exact Or.inr ⟨Or.inr ⟨hx, hxr⟩, hn⟩

/-- Every row after a bulk replacement was inserted or was there before. -/
theorem mem_or_mem_of_mem_insertAllOrReplace {t : Table Row key} {l : List Row} {x : Row}
    (h : x ∈ t.insertAllOrReplace l) : x ∈ l ∨ (x ∈ t ∧ key x ∉ l.map key) := by
  induction l generalizing t with
  | nil => exact Or.inr ⟨h, by simp⟩
  | cons r l ih =>
      obtain hx | ⟨hx, hn⟩ := ih (t := t.insertOrReplace r) h
      · exact Or.inl (by simp [hx])
      · obtain rfl | ⟨hx, hxr⟩ := (mem_insertOrReplace ..).mp hx
        · exact Or.inl (by simp)
        · exact Or.inr ⟨hx, by simpa [hxr] using hn⟩

/-- A bulk replacement leaves the rows with other keys alone. -/
theorem mem_insertAllOrReplace_of_key_notMem {t : Table Row key} {l : List Row} {x : Row}
    (hx : key x ∉ l.map key) : x ∈ t.insertAllOrReplace l ↔ x ∈ t := by
  induction l generalizing t with
  | nil => simp [insertAllOrReplace]
  | cons r l ih =>
      simp only [List.map_cons, List.mem_cons, not_or] at hx
      change x ∈ (t.insertOrReplace r).insertAllOrReplace l ↔ _
      rw [ih hx.2, mem_insertOrReplace]
      constructor
      · rintro (rfl | h)
        · exact absurd rfl hx.1
        · exact h.1
      · exact fun h => Or.inr ⟨h, hx.1⟩

theorem exists_key_insertOrReplace (t : Table Row key) (r : Row) (k : Key) :
    (∃ x ∈ t.insertOrReplace r, key x = k) ↔ (∃ x ∈ t, key x = k) ∨ k = key r := by
  simp only [mem_insertOrReplace]
  constructor
  · intro h
    obtain ⟨x, rfl | ⟨hx, -⟩, hk⟩ := h
    · exact Or.inr hk.symm
    · exact Or.inl ⟨x, hx, hk⟩
  · intro h
    obtain ⟨x, hx, hk⟩ | hk := h
    · by_cases hxr : key x = key r
      · exact ⟨r, Or.inl rfl, hxr.symm.trans hk⟩
      · exact ⟨x, Or.inr ⟨hx, hxr⟩, hk⟩
    · exact ⟨r, Or.inl rfl, hk.symm⟩

theorem exists_key_insertOrIgnore (t : Table Row key) (r : Row) (k : Key) :
    (∃ x ∈ t.insertOrIgnore r, key x = k) ↔ (∃ x ∈ t, key x = k) ∨ k = key r := by
  simp only [mem_insertOrIgnore]
  constructor
  · intro h
    obtain ⟨x, hx | ⟨rfl, -⟩, hk⟩ := h
    · exact Or.inl ⟨x, hx, hk⟩
    · exact Or.inr hk.symm
  · intro h
    obtain ⟨x, hx, hk⟩ | hk := h
    · exact ⟨x, Or.inl hx, hk⟩
    · by_cases hr : ∃ y ∈ t, key y = key r
      · obtain ⟨y, hy, hyr⟩ := hr
        exact ⟨y, Or.inl hy, hyr.trans hk.symm⟩
      · exact ⟨r, Or.inr ⟨rfl, fun y hy hyr => hr ⟨y, hy, hyr⟩⟩, hk.symm⟩

omit [DecidableEq Row] [DecidableEq Key] in
/-- Statements that each add one key add the keys of their rows. -/
theorem exists_key_foldl {insert : Table Row key → Row → Table Row key}
    (hinsert : ∀ t r k, (∃ x ∈ insert t r, key x = k) ↔ (∃ x ∈ t, key x = k) ∨ k = key r)
    (t : Table Row key) (l : List Row) (k : Key) :
    (∃ x ∈ l.foldl insert t, key x = k) ↔ (∃ x ∈ t, key x = k) ∨ k ∈ l.map key := by
  induction l generalizing t with
  | nil => simp
  | cons r l ih => rw [List.foldl_cons, ih, hinsert, List.map_cons, List.mem_cons, or_assoc]

/-- Every inserted key is present after a bulk replacement. -/
theorem exists_key_insertAllOrReplace (t : Table Row key) (l : List Row) (k : Key) :
    (∃ x ∈ t.insertAllOrReplace l, key x = k) ↔ (∃ x ∈ t, key x = k) ∨ k ∈ l.map key :=
  exists_key_foldl exists_key_insertOrReplace t l k

/-- A bulk `INSERT OR IGNORE` keeps all rows and adds exactly the missing keys. -/
theorem exists_key_insertAllOrIgnore (t : Table Row key) (l : List Row) (k : Key) :
    (∃ x ∈ t.insertAllOrIgnore l, key x = k) ↔ (∃ x ∈ t, key x = k) ∨ k ∈ l.map key :=
  exists_key_foldl exists_key_insertOrIgnore t l k

theorem mem_insertAllOrIgnore_of_mem {t : Table Row key} {l : List Row} {x : Row}
    (hx : x ∈ t) : x ∈ t.insertAllOrIgnore l := by
  induction l generalizing t with
  | nil => exact hx
  | cons r l ih => exact ih ((mem_insertOrIgnore ..).mpr (Or.inl hx))

theorem mem_or_mem_of_mem_insertAllOrIgnore {t : Table Row key} {l : List Row} {x : Row}
    (h : x ∈ t.insertAllOrIgnore l) : x ∈ t ∨ x ∈ l := by
  induction l generalizing t with
  | nil => exact Or.inl h
  | cons r l ih =>
      obtain hx | hx := ih (t := t.insertOrIgnore r) h
      · obtain hx | ⟨rfl, -⟩ := (mem_insertOrIgnore ..).mp hx
        · exact Or.inl hx
        · exact Or.inr (by simp)
      · exact Or.inr (by simp [hx])

/-- Into an empty table, rows that agree wherever their keys do are all inserted. -/
theorem mem_insertAllOrIgnore_empty {l : List Row} {x : Row}
    (hl : ∀ x ∈ l, ∀ y ∈ l, key x = key y → x = y) :
    x ∈ (∅ : Table Row key).insertAllOrIgnore l ↔ x ∈ l := by
  have hmem : ∀ y ∈ (∅ : Table Row key).insertAllOrIgnore l, y ∈ l := by
    intro y hy
    exact (mem_or_mem_of_mem_insertAllOrIgnore hy).resolve_left (notMem_empty y)
  constructor
  · exact hmem x
  · intro hx
    obtain ⟨y, hy, hkey⟩ := (exists_key_insertAllOrIgnore (∅ : Table Row key) l (key x)).mpr
      (Or.inr (List.mem_map_of_mem hx))
    rwa [hl x hx y (hmem y hy) hkey.symm]

/-- Where the key is the whole row, `INSERT OR IGNORE` is the union. -/
theorem mem_insertAllOrIgnore (hkey : Function.Injective key) (t : Table Row key)
    (l : List Row) (x : Row) : x ∈ t.insertAllOrIgnore l ↔ x ∈ t ∨ x ∈ l := by
  constructor
  · exact mem_or_mem_of_mem_insertAllOrIgnore
  · rintro (hx | hx)
    · exact mem_insertAllOrIgnore_of_mem hx
    · obtain ⟨y, hy, hyx⟩ := (exists_key_insertAllOrIgnore t l (key x)).mpr
        (Or.inr (List.mem_map_of_mem hx))
      rwa [hkey hyx] at hy

/-- An upsert leaves the rows with other keys alone. -/
theorem mem_upsert_of_key_ne {t : Table Row key} {r : Row} {f : Row → Row}
    {hf : ∀ x, key (f x) = key x} {x : Row} (hx : key x ≠ key r) :
    x ∈ t.upsert r f hf ↔ x ∈ t := by
  rw [mem_upsert]
  constructor
  · rintro (⟨y, -, hy, rfl⟩ | ⟨h, -⟩ | ⟨rfl, -⟩)
    · exact absurd ((hf y).trans hy) hx
    · exact h
    · exact absurd rfl hx
  · exact fun h => Or.inr (Or.inl ⟨h, hx⟩)

/-- What holds of the row an upsert leaves under its key. -/
theorem exists_mem_upsert (t : Table Row key) (r : Row) {f : Row → Row}
    (hf : ∀ x, key (f x) = key x) (P : Row → Prop) :
    (∃ x ∈ t.upsert r f hf, key x = key r ∧ P x) ↔
      (∃ x ∈ t, key x = key r ∧ P (f x)) ∨ ((∀ x ∈ t, key x ≠ key r) ∧ P r) := by
  constructor
  · rintro ⟨x, hx, hxr, hP⟩
    obtain ⟨y, hy, hyr, rfl⟩ | ⟨-, hne⟩ | ⟨rfl, hn⟩ := (mem_upsert ..).mp hx
    · exact Or.inl ⟨y, hy, hyr, hP⟩
    · exact absurd hxr hne
    · exact Or.inr ⟨hn, hP⟩
  · rintro (⟨y, hy, hyr, hP⟩ | ⟨hn, hP⟩)
    · exact ⟨f y, (mem_upsert ..).mpr (Or.inl ⟨y, hy, hyr, rfl⟩), (hf y).trans hyr, hP⟩
    · exact ⟨r, (mem_upsert ..).mpr (Or.inr (Or.inr ⟨rfl, hn⟩)), rfl, hP⟩

/-- Repeated upserts count: a key already present is bumped once per
occurrence, a new key starts at its first occurrence. -/
theorem mem_foldl_upsert [BEq Key] [LawfulBEq Key] (t : Table Row key) (mk : Key → Row)
    (hmk : ∀ k, key (mk k) = k) (f : Row → Row) (hf : ∀ x, key (f x) = key x) (l : List Key)
    (r : Row) :
    r ∈ l.foldl (fun t k => t.upsert (mk k) f hf) t ↔
      (∃ x ∈ t, key x = key r ∧ r = f^[l.count (key r)] x) ∨
        ((∀ x ∈ t, key x ≠ key r) ∧ key r ∈ l ∧
          r = f^[l.count (key r) - 1] (mk (key r))) := by
  induction l generalizing t with
  | nil =>
      simp only [List.foldl_nil, List.count_nil, Function.iterate_zero_apply,
        List.not_mem_nil, false_and, and_false, or_false]
      constructor
      · exact fun h => ⟨r, h, rfl, rfl⟩
      · rintro ⟨x, hx, -, rfl⟩
        exact hx
  | cons k l ih =>
      rw [List.foldl_cons]
      apply (ih (t.upsert (mk k) f hf)).trans
      by_cases hkr : key (mk k) = key r
      · have hk : k = key r := (hmk k).symm.trans hkr
        have hpresent : ¬ ∀ x ∈ t.upsert (mk k) f hf, key x ≠ key r := by
          intro hn
          obtain ⟨x, hx, hxk, -⟩ : ∃ x ∈ t.upsert (mk k) f hf,
              key x = key (mk k) ∧ True := by
            rw [exists_mem_upsert _ _ _ (fun _ => True)]
            by_cases h : ∃ x ∈ t, key x = key (mk k)
            · obtain ⟨x, hx, hxk⟩ := h
              exact Or.inl ⟨x, hx, hxk, trivial⟩
            · exact Or.inr ⟨fun x hx hxk => h ⟨x, hx, hxk⟩, trivial⟩
          exact hn x hx (hxk.trans hkr)
        have hstep := exists_mem_upsert t (mk k) hf
          (fun x => r = f^[l.count (key r)] x)
        simp only [hkr] at hstep
        rw [hk] at hpresent hstep ⊢
        simp only [hpresent, false_and, or_false, hstep, List.count_cons_self,
          Nat.add_sub_cancel, List.mem_cons, true_or, true_and,
          Function.iterate_succ_apply]
      · have hk : k ≠ key r := fun h => hkr ((hmk k).trans h)
        have hother : ∀ x, key x = key r → (x ∈ t.upsert (mk k) f hf ↔ x ∈ t) :=
          fun x hx => mem_upsert_of_key_ne fun h => hkr (h.symm.trans hx)
        have hex : (∃ x ∈ t.upsert (mk k) f hf, key x = key r ∧ r = f^[l.count (key r)] x) ↔
            ∃ x ∈ t, key x = key r ∧ r = f^[l.count (key r)] x := by
          constructor
          · rintro ⟨x, hx, hxr, h⟩
            exact ⟨x, (hother x hxr).mp hx, hxr, h⟩
          · rintro ⟨x, hx, hxr, h⟩
            exact ⟨x, (hother x hxr).mpr hx, hxr, h⟩
        have hnone : (∀ x ∈ t.upsert (mk k) f hf, key x ≠ key r) ↔
            ∀ x ∈ t, key x ≠ key r := by
          constructor
          · exact fun h x hx hxr => h x ((hother x hxr).mpr hx) hxr
          · exact fun h x hx hxr => h x ((hother x hxr).mp hx) hxr
        rw [hex, hnone, List.count_cons_of_ne hk, List.mem_cons]
        simp only [hk.symm, false_or]

end Bulk

end Table

end LocalGraphRag.Relational
