import Mathlib.Data.List.Basic
import Mathlib.Data.Set.Insert

/-!
# Records between separators

Records of three fields, each on a line of its own, in two groups with a marker line between
them. Nothing is escaped, so a field may hold what begins a line. What is asked is when the
text still determines the records.

## Implementation notes

The first field of a record is found as what stands between the last line separator and the
first field separator after it. Only the border between the groups is left to the contents:
a first field of the second group must be one of the first group's.
-/

namespace LocalGraphRag.Sequences

variable {α : Type*} {sep nl : α} {a b s t : List α}

/-- The first separator tells where the text before it ends. -/
theorem append_cons_cancel (ha : sep ∉ a) (hb : sep ∉ b) (h : a ++ sep :: s = b ++ sep :: t) :
    a = b ∧ s = t := by
  induction a generalizing b with
  | nil =>
      cases b with
      | nil => exact ⟨rfl, (List.cons.inj h).2⟩
      | cons y b =>
          have hy : sep = y := (List.cons.inj h).1
          exact absurd (hy ▸ List.mem_cons_self) hb
  | cons x a ih =>
      rw [List.mem_cons, not_or] at ha
      cases b with
      | nil => exact absurd (List.cons.inj h).1.symm ha.1
      | cons y b =>
          rw [List.mem_cons, not_or] at hb
          obtain ⟨hxy, hrest⟩ := List.cons.inj h
          obtain ⟨hab, hst⟩ := ih ha.2 hb.2 hrest
          exact ⟨by rw [hxy, hab], hst⟩

/-- The last separator tells where the text after it begins. -/
theorem cons_append_cancel (hs : sep ∉ s) (ht : sep ∉ t) (h : a ++ sep :: s = b ++ sep :: t) :
    a = b ∧ s = t := by
  have hreverse : s.reverse ++ sep :: a.reverse = t.reverse ++ sep :: b.reverse := by
    simpa using congrArg List.reverse h
  obtain ⟨hst, hab⟩ := append_cons_cancel (mt List.mem_reverse.mp hs)
    (mt List.mem_reverse.mp ht) hreverse
  exact ⟨List.reverse_injective hab, List.reverse_injective hst⟩

variable (sep nl) in
/-- A record with its fields separated. -/
def record (x : List α × List α × List α) : List α := x.1 ++ sep :: (x.2.1 ++ sep :: x.2.2)

variable (sep nl) in
/-- Records, each after a line separator. -/
def recordLines (records : List (List α × List α × List α)) : List α :=
  records.flatMap fun x => nl :: record sep x

/-- No field holds a separator of fields, and the first one no separator of lines. -/
structure Separated (sep nl : α) (x : List α × List α × List α) : Prop where
  first : sep ∉ x.1
  first_line : nl ∉ x.1
  second : sep ∉ x.2.1
  third : sep ∉ x.2.2

variable {x x' : List α × List α × List α} {records records' : List (List α × List α × List α)}
variable {marker l l' rest rest' : List α}

theorem recordLines_cons (x : List α × List α × List α)
    (records : List (List α × List α × List α)) :
    recordLines sep nl (x :: records) =
      nl :: x.1 ++ sep :: (x.2.1 ++ sep :: (x.2.2 ++ recordLines sep nl records)) := by
  simp [recordLines, record]

theorem mem_recordLines_cons : sep ∈ recordLines sep nl (x :: records) := by
  simp [recordLines_cons]

/-- After a text without separators of fields, the next line's first field is determined. -/
theorem first_field_cancel (hne : sep ≠ nl) (hl : sep ∉ l) (hl' : sep ∉ l')
    (hs : sep ∉ s) (hsnl : nl ∉ s) (ht : sep ∉ t) (htnl : nl ∉ t)
    (h : l ++ nl :: s ++ sep :: rest = l' ++ nl :: t ++ sep :: rest') :
    l = l' ∧ s = t ∧ rest = rest' := by
  have hleft : sep ∉ l ++ nl :: s := by simp [hl, hs, hne]
  have hright : sep ∉ l' ++ nl :: t := by simp [hl', ht, hne]
  obtain ⟨hlines, hrest⟩ := append_cons_cancel hleft hright h
  obtain ⟨hll, hst⟩ := cons_append_cancel hsnl htnl hlines
  exact ⟨hll, hst, hrest⟩

/-- One line is peeled off, up to its third field. -/
theorem recordLines_cons_cancel (hne : sep ≠ nl) (hl : sep ∉ l) (hl' : sep ∉ l')
    (hx : Separated sep nl x) (hx' : Separated sep nl x')
    (h : l ++ (nl :: x.1 ++ sep :: (x.2.1 ++ sep :: (x.2.2 ++ rest))) =
      l' ++ (nl :: x'.1 ++ sep :: (x'.2.1 ++ sep :: (x'.2.2 ++ rest')))) :
    l = l' ∧ x.1 = x'.1 ∧ x.2.1 = x'.2.1 ∧ x.2.2 ++ rest = x'.2.2 ++ rest' := by
  rw [← List.append_assoc, ← List.append_assoc] at h
  obtain ⟨hll, hfirst, hafter⟩ :=
    first_field_cancel hne hl hl' hx.first hx.first_line hx'.first hx'.first_line h
  obtain ⟨hsecond, hthird⟩ := append_cons_cancel hx.second hx'.second hafter
  exact ⟨hll, hfirst, hsecond, hthird⟩

/-- The lines determine the records, and the text before them. -/
theorem recordLines_cancel (hne : sep ≠ nl) (hl : sep ∉ l) (hl' : sep ∉ l')
    (hrecords : ∀ x ∈ records, Separated sep nl x)
    (hrecords' : ∀ x ∈ records', Separated sep nl x)
    (h : l ++ recordLines sep nl records = l' ++ recordLines sep nl records') :
    l = l' ∧ records = records' := by
  induction records generalizing l l' records' with
  | nil =>
      cases records' with
      | nil => exact ⟨by simpa [recordLines] using h, rfl⟩
      | cons x' records' =>
          have hmem : sep ∈ l ++ recordLines sep nl [] :=
            h ▸ List.mem_append_right l' mem_recordLines_cons
          exact absurd (by simpa [recordLines] using hmem) hl
  | cons x records ih =>
      cases records' with
      | nil =>
          have hmem : sep ∈ l' ++ recordLines sep nl [] :=
            h ▸ List.mem_append_right l mem_recordLines_cons
          exact absurd (by simpa [recordLines] using hmem) hl'
      | cons x' records' =>
          have hx := hrecords x List.mem_cons_self
          have hx' := hrecords' x' List.mem_cons_self
          rw [recordLines_cons, recordLines_cons] at h
          obtain ⟨hll, hfirst, hsecond, hrest⟩ := recordLines_cons_cancel hne hl hl' hx hx' h
          obtain ⟨hthird, htail⟩ := ih hx.third hx'.third
            (fun y hy => hrecords y (List.mem_cons_of_mem x hy))
            (fun y hy => hrecords' y (List.mem_cons_of_mem x' hy)) hrest
          exact ⟨hll, by rw [Prod.ext hfirst (Prod.ext hsecond hthird), htail]⟩

variable (sep nl marker) in
/-- Two groups of records with a marker line between them. -/
def groupLines (records edges : List (List α × List α × List α)) : List α :=
  recordLines sep nl records ++ (nl :: marker ++ recordLines sep nl edges)

variable {edges edges' : List (List α × List α × List α)}

theorem groupLines_cons : groupLines sep nl marker (x :: records) edges =
    nl :: x.1 ++
      sep :: (x.2.1 ++ sep :: (x.2.2 ++ groupLines sep nl marker records edges)) := by
  simp [groupLines, recordLines_cons]

/-- The lines of the first group do not end early: the marker line and what follows it
cannot be read as another record of the first group. -/
theorem marker_ne_record (hne : sep ≠ nl) (hmarker : sep ∉ marker) (hl : sep ∉ l)
    (hl' : sep ∉ l') (hedges : ∀ x ∈ edges, Separated sep nl x) (hx' : Separated sep nl x')
    (hfresh : ∀ x ∈ edges, x.1 ≠ x'.1) :
    l ++ groupLines sep nl marker [] edges ≠
      l' ++ groupLines sep nl marker (x' :: records') edges' := by
  intro h
  have hbefore : sep ∉ l ++ nl :: marker := by simp [hl, hmarker, hne]
  rw [groupLines_cons] at h
  cases edges with
  | nil =>
      have hleft : l ++ groupLines sep nl marker [] [] = l ++ nl :: marker := by
        simp [groupLines, recordLines]
      rw [hleft] at h
      exact hbefore (by simp [h])
  | cons x edges =>
      have hx := hedges x List.mem_cons_self
      have hlines : (l ++ nl :: marker) ++ (nl :: x.1 ++
          sep :: (x.2.1 ++ sep :: (x.2.2 ++ recordLines sep nl edges))) =
          l' ++ (nl :: x'.1 ++ sep :: (x'.2.1 ++ sep :: (x'.2.2 ++
            groupLines sep nl marker records' edges'))) := by
        rw [← h, ← recordLines_cons]
        simp [groupLines, recordLines]
      obtain ⟨-, hfirst, -⟩ := recordLines_cons_cancel hne hbefore hl' hx hx' hlines
      exact hfresh x List.mem_cons_self hfirst

/-- What is left of two groups once the first fields in `known` have been read. -/
structure Remaining (sep nl : α) (known : Set (List α))
    (records edges : List (List α × List α × List α)) : Prop where
  first : ∀ x ∈ records, Separated sep nl x
  second : ∀ x ∈ edges, Separated sep nl x
  nodup : (records.map Prod.fst).Nodup
  new : ∀ x ∈ records, x.1 ∉ known
  ends : ∀ x ∈ edges, x.1 ∈ known ∨ x.1 ∈ records.map Prod.fst

section Remaining
variable {known : Set (List α)}

/-- A record that is read makes its first field known. -/
theorem Remaining.tail (h : Remaining sep nl known (x :: records) edges) :
    Remaining sep nl (insert x.1 known) records edges := by
  obtain ⟨hfirst, hnodup⟩ := List.nodup_cons.mp h.nodup
  constructor
  · exact fun y hy => h.first y (List.mem_cons_of_mem x hy)
  · exact h.second
  · exact hnodup
  · intro y hy hmem
    obtain heq | hknown := hmem
    · exact hfirst (heq ▸ List.mem_map_of_mem hy)
    · exact h.new y (List.mem_cons_of_mem x hy) hknown
  · intro y hy
    rw [Set.mem_insert_iff, or_assoc, or_left_comm, ← List.mem_cons]
    exact h.ends y hy

/-- Where the first group is read, no record of the second begins like a new one. -/
theorem Remaining.fresh (h : Remaining sep nl known [] edges)
    (h' : Remaining sep nl known (x :: records) edges') : ∀ y ∈ edges, y.1 ≠ x.1 := by
  intro y hy heq
  obtain hknown | hnil := h.ends y hy
  · exact h'.new x List.mem_cons_self (heq ▸ hknown)
  · exact absurd hnil List.not_mem_nil

/-- The lines determine both groups where the first fields of the first group are distinct
and those of the second are among them. -/
theorem groupLines_cancel (hne : sep ≠ nl) (hmarker : sep ∉ marker) (hl : sep ∉ l)
    (hl' : sep ∉ l') (hleft : Remaining sep nl known records edges)
    (hright : Remaining sep nl known records' edges')
    (h : l ++ groupLines sep nl marker records edges =
      l' ++ groupLines sep nl marker records' edges') :
    l = l' ∧ records = records' ∧ edges = edges' := by
  induction records generalizing l l' records' known with
  | nil =>
      cases records' with
      | nil =>
          have hbefore : sep ∉ l ++ nl :: marker := by simp [hl, hmarker, hne]
          have hbefore' : sep ∉ l' ++ nl :: marker := by simp [hl', hmarker, hne]
          have hlines : (l ++ nl :: marker) ++ recordLines sep nl edges =
              (l' ++ nl :: marker) ++ recordLines sep nl edges' := by
            simpa [groupLines, recordLines] using h
          obtain ⟨hll, heq⟩ :=
            recordLines_cancel hne hbefore hbefore' hleft.second hright.second hlines
          exact ⟨List.append_cancel_right hll, rfl, heq⟩
      | cons x' records' =>
          exact absurd h (marker_ne_record hne hmarker hl hl' hleft.second
            (hright.first x' List.mem_cons_self) (hleft.fresh hright))
  | cons x records ih =>
      cases records' with
      | nil =>
          exact absurd h.symm (marker_ne_record hne hmarker hl' hl hright.second
            (hleft.first x List.mem_cons_self) (hright.fresh hleft))
      | cons x' records' =>
          have hx := hleft.first x List.mem_cons_self
          have hx' := hright.first x' List.mem_cons_self
          rw [groupLines_cons, groupLines_cons] at h
          obtain ⟨hll, hfirst, hsecond, hrest⟩ := recordLines_cons_cancel hne hl hl' hx hx' h
          have hright' : Remaining sep nl (insert x.1 known) records' edges' :=
            hfirst ▸ hright.tail
          obtain ⟨hthird, htail, hedge⟩ := ih hx.third hx'.third hleft.tail hright' hrest
          exact ⟨hll, by rw [Prod.ext hfirst (Prod.ext hsecond hthird), htail], hedge⟩

end Remaining

end LocalGraphRag.Sequences
