import LocalGraphRag.Python.Text
import Mathlib.Data.List.Count

/-!
# Fields between separators

What `str.split` makes of a text with a separator of one code point: one field more than
there are separators, and none of them holds one.
-/

namespace LocalGraphRag.Python

variable {sep : CodePoint} {s t : Text}

theorem splitOn_ne_nil (sep : CodePoint) (s : Text) : splitOn sep s ≠ [] := by
  cases s with
  | nil => exact List.cons_ne_nil _ _
  | cons c s =>
      rw [splitOn]
      split_ifs
      · exact List.cons_ne_nil _ _
      · split <;> exact List.cons_ne_nil _ _

theorem splitOn_cons_of_ne {c : CodePoint} (hc : c ≠ sep) (s : Text) :
    splitOn sep (c :: s) = (splitOn sep s).modifyHead (c :: ·) := by
  rw [splitOn, if_neg hc]
  split
  · rename_i hnil
    exact absurd hnil (splitOn_ne_nil sep s)
  · rename_i part parts hparts
    rw [hparts]
    rfl

theorem splitOn_of_notMem {sep : CodePoint} {n : Text} (h : sep ∉ n) :
    splitOn sep n = [n] := by
  induction n with
  | nil => rfl
  | cons c n ih =>
      rw [List.mem_cons, not_or] at h
      rw [splitOn, if_neg (Ne.symm h.1), ih h.2]

theorem splitOn_append_sep {sep : CodePoint} {n : Text} (h : sep ∉ n) (rest : Text) :
    splitOn sep (n ++ sep :: rest) = n :: splitOn sep rest := by
  induction n with
  | nil => simp [splitOn]
  | cons c n ih =>
      rw [List.mem_cons, not_or] at h
      rw [List.cons_append, splitOn, if_neg (Ne.symm h.1), ih h.2]

theorem splitOn_join {sep : CodePoint} {parts : List Text} (hne : parts ≠ [])
    (h : ∀ n ∈ parts, sep ∉ n) : splitOn sep (join [sep] parts) = parts := by
  induction parts with
  | nil => exact absurd rfl hne
  | cons n parts ih =>
      cases parts with
      | nil => simpa [join] using splitOn_of_notMem (h n (by simp))
      | cons m parts =>
          have hjoin : join [sep] (n :: m :: parts) = n ++ sep :: join [sep] (m :: parts) := by
            simp [join, List.intercalate, List.intersperse]
          rw [hjoin, splitOn_append_sep (h n (by simp)),
            ih (by simp) fun x hx => h x (List.mem_cons_of_mem n hx)]

/-- A separator ends a field. -/
theorem splitOn_append (sep : CodePoint) (s t : Text) :
    splitOn sep (s ++ sep :: t) = splitOn sep s ++ splitOn sep t := by
  induction s with
  | nil => simp [splitOn]
  | cons c s ih =>
      by_cases hc : c = sep
      · rw [List.cons_append, splitOn, splitOn, if_pos hc, if_pos hc, ih]
        rfl
      · obtain ⟨part, parts, hparts⟩ := List.exists_cons_of_ne_nil (splitOn_ne_nil sep s)
        rw [List.cons_append, splitOn_cons_of_ne hc, splitOn_cons_of_ne hc, ih, hparts]
        rfl

/-- There is one field more than there are separators. -/
theorem length_splitOn (sep : CodePoint) (s : Text) :
    (splitOn sep s).length = s.count sep + 1 := by
  induction s with
  | nil => rfl
  | cons c s ih =>
      by_cases hc : c = sep
      · rw [splitOn, if_pos hc, hc, List.count_cons_self, List.length_cons, ih]
      · rw [splitOn_cons_of_ne hc, List.length_modifyHead, ih, List.count_cons_of_ne hc]

/-- Records that each begin with a separator, after a first text. -/
theorem splitOn_append_flatMap (sep : CodePoint) (s : Text) (records : List Text) :
    splitOn sep (s ++ records.flatMap (sep :: ·)) =
      splitOn sep s ++ records.flatMap (splitOn sep) := by
  induction records generalizing s with
  | nil => simp
  | cons r records ih =>
      rw [List.flatMap_cons, List.flatMap_cons, List.cons_append, splitOn_append, ih]

end LocalGraphRag.Python
