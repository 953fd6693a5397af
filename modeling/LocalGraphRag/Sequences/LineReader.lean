import Mathlib.Data.List.Basic

/-!
# Reading lines as they come

A reader keeps the piece of a line that has not ended, and gives away the lines that have.
What it has given away depends on what came in, and not on the pieces in which it came.
-/

namespace LocalGraphRag.Sequences

variable {α : Type} [DecidableEq α] (sep : α)

/-- The lines that have ended, and the piece behind them. -/
def splitLines (s : List α) : List (List α) × List α :=
  ((s.splitOn sep).dropLast, (s.splitOn sep).getLastD [])

/-- The lines that a reader gives away on the pieces, and what it keeps. -/
def readAll : List α → List (List α) → List (List α) × List α
  | buffer, [] => ([], buffer)
  | buffer, piece :: pieces =>
      let read := splitLines sep (buffer ++ piece)
      (read.1 ++ (readAll read.2 pieces).1, (readAll read.2 pieces).2)

section Lines
variable {sep}

@[simp] theorem splitLines_nil : splitLines sep [] = ([], []) := by simp [splitLines]

theorem splitLines_of_notMem {s : List α} (h : sep ∉ s) : splitLines sep s = ([], s) := by
  simp [splitLines, List.splitOn_eq_singleton h]

theorem splitLines_append_sep {line : List α} (h : sep ∉ line) (s : List α) :
    splitLines sep (line ++ sep :: s) =
      (line :: (splitLines sep s).1, (splitLines sep s).2) := by
  obtain ⟨first, lines, hs⟩ := List.exists_cons_of_ne_nil (List.splitOn_ne_nil sep s)
  rw [splitLines, List.splitOn_append_cons_self_of_not_mem h]
  simp [splitLines, hs, List.getLastD]

/-- Lines that have ended, each with its separator. -/
def endLines (sep : α) (lines : List (List α)) : List α := lines.flatMap (· ++ [sep])

theorem splitLines_endLines {lines : List (List α)} (h : ∀ line ∈ lines, sep ∉ line)
    (s : List α) : splitLines sep (endLines sep lines ++ s) =
      (lines ++ (splitLines sep s).1, (splitLines sep s).2) := by
  induction lines with
  | nil => rfl
  | cons line lines ih =>
      obtain ⟨hline, hlines⟩ := List.forall_mem_cons.mp h
      have hcons : endLines sep (line :: lines) ++ s =
          line ++ sep :: (endLines sep lines ++ s) := by
        simp [endLines]
      rw [hcons, splitLines_append_sep hline, ih hlines]
      rfl

/-- Every text is made of lines that have ended and the piece of another. -/
theorem exists_lines (sep : α) (s : List α) : ∃ lines rest, s = endLines sep lines ++ rest ∧
    (∀ line ∈ lines, sep ∉ line) ∧ sep ∉ rest := by
  induction s with
  | nil => exact ⟨[], [], rfl, by simp, by simp⟩
  | cons c s ih =>
      obtain ⟨lines, rest, rfl, hlines, hrest⟩ := ih
      by_cases hc : c = sep
      · subst hc
        exact ⟨[] :: lines, rest, rfl, by simpa using hlines, hrest⟩
      · cases lines with
        | nil =>
            refine ⟨[], c :: rest, rfl, by simp, ?_⟩
            simp [Ne.symm hc, hrest]
        | cons line lines =>
            obtain ⟨hline, hlines⟩ := List.forall_mem_cons.mp hlines
            refine ⟨(c :: line) :: lines, rest, rfl, ?_, hrest⟩
            exact List.forall_mem_cons.mpr ⟨by simp [Ne.symm hc, hline], hlines⟩

theorem splitLines_snd_notMem (s : List α) : sep ∉ (splitLines sep s).2 := by
  obtain ⟨lines, rest, rfl, hlines, hrest⟩ := exists_lines sep s
  rwa [splitLines_endLines hlines, splitLines_of_notMem hrest]

/-- More input ends the line of the piece that was kept, and leaves the lines before it. -/
theorem splitLines_append (s t : List α) : splitLines sep (s ++ t) =
    ((splitLines sep s).1 ++ (splitLines sep ((splitLines sep s).2 ++ t)).1,
      (splitLines sep ((splitLines sep s).2 ++ t)).2) := by
  obtain ⟨lines, rest, rfl, hlines, hrest⟩ := exists_lines sep s
  rw [List.append_assoc, splitLines_endLines hlines, splitLines_endLines hlines,
    splitLines_of_notMem hrest, List.append_nil]

/-- How the input came makes no difference. -/
theorem readAll_eq {buffer : List α} (h : sep ∉ buffer) (pieces : List (List α)) :
    readAll sep buffer pieces = splitLines sep (buffer ++ pieces.flatten) := by
  induction pieces generalizing buffer with
  | nil => rw [List.flatten_nil, List.append_nil, splitLines_of_notMem h, readAll]
  | cons piece pieces ih =>
      rw [List.flatten_cons, ← List.append_assoc, splitLines_append, readAll,
        ih (splitLines_snd_notMem _)]

/-- A reader that has less of a text has fewer of its lines. -/
theorem splitLines_prefix {s t : List α} (h : s <+: t) :
    (splitLines sep s).1 <+: (splitLines sep t).1 := by
  obtain ⟨more, rfl⟩ := h
  rw [splitLines_append]
  exact List.prefix_append _ _

end Lines

end LocalGraphRag.Sequences
