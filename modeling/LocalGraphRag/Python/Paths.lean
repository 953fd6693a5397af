import LocalGraphRag.Python.Fields

/-!
# Paths by their components

A normalised absolute path is a list of names. `Path.str` is its string, and
`pathParts` reads the names back, so containment of paths is a prefix relation.
-/

namespace LocalGraphRag.Python

/-- A component of a path. -/
abbrev Name := {n : Text // n ≠ [] ∧ n ≠ [0x2e] ∧ 0x2f ∉ n}

/-- A normalised absolute path; the root is the empty list. -/
abbrev Path := List Name

/-- `str(path)`. -/
def Path.str (p : Path) : Text := 0x2f :: join [0x2f] (p.map Subtype.val)

/-- The parts of a path's string are the root and its names. -/
theorem pathParts_str (p : Path) : pathParts p.str = [0x2f] :: p.map Subtype.val := by
  have hfilter : ∀ l : List Text, (∀ n ∈ l, n ≠ [] ∧ n ≠ [0x2e]) →
      l.filter (fun part => part ≠ [] ∧ part ≠ [0x2e]) = l := by
    intro l hl
    exact List.filter_eq_self.mpr fun n hn => by simpa using hl n hn
  have hnames : ∀ n ∈ p.map Subtype.val, n ≠ [] ∧ n ≠ [0x2e] ∧ 0x2f ∉ n := by
    intro n hn
    obtain ⟨m, -, rfl⟩ := List.mem_map.mp hn
    exact m.2
  unfold pathParts Path.str
  rw [List.head?_cons, if_pos rfl, splitOn, if_pos rfl]
  cases p with
  | nil => decide
  | cons m p =>
      rw [splitOn_join (by simp) fun n hn => (hnames n hn).2.2,
        List.filter_cons_of_neg (by simp),
        hfilter _ fun n hn => ⟨(hnames n hn).1, (hnames n hn).2.1⟩]
      rfl

/-- The path is the given one or leads to it: `Path(t).is_relative_to(d)`. -/
def Path.LeadsTo (d : Path) (t : Text) : Prop := isRelativeTo t d.str = true

instance (d : Path) (t : Text) : Decidable (d.LeadsTo t) :=
  inferInstanceAs (Decidable (_ = true))

theorem Path.leadsTo_iff {d : Path} {t : Text} :
    d.LeadsTo t ↔ [0x2f] :: d.map Subtype.val <+: pathParts t := by
  rw [Path.LeadsTo, isRelativeTo, pathParts_str, List.isPrefixOf_iff_prefix]

/-- Whoever leads to a path has parents that do. -/
theorem Path.LeadsTo.parent {d e : Path} {t : Text} (h : Path.LeadsTo (d ++ e) t) :
    d.LeadsTo t := by
  rw [Path.leadsTo_iff] at h ⊢
  rw [List.map_append, ← List.cons_append] at h
  exact (List.prefix_append _ _).trans h

theorem Path.leadsTo_str_append (d e : Path) : d.LeadsTo (Path.str (d ++ e)) := by
  rw [Path.leadsTo_iff, pathParts_str, List.map_append, ← List.cons_append]
  exact List.prefix_append _ _

end LocalGraphRag.Python
