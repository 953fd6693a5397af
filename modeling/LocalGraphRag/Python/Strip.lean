import LocalGraphRag.Python.Split

/-!
# Stripped texts

A text is its stripped text with whitespace around it, and what is found in a text is
found, stripped, in the stripped text.
-/

namespace LocalGraphRag.Python

variable {s t before middle after : Text}

/-- Whitespace only. -/
def Blank (s : Text) : Prop := ∀ c ∈ s, isSpace c = true

instance (s : Text) : Decidable (Blank s) :=
  List.decidableBAll (fun c => isSpace c = true) s

/-- The first and the last character are no whitespace. -/
structure Trimmed (s : Text) : Prop where
  head : ∀ c ∈ s.head?, isSpace c = false
  last : ∀ c ∈ s.getLast?, isSpace c = false

theorem strip_eq_nil_iff : strip s = [] ↔ Blank s := stripWhile_eq_nil_iff

theorem head_dropWhile (s : Text) : ∀ c ∈ (s.dropWhile isSpace).head?, isSpace c = false := by
  intro c hc
  have hfirst := List.head?_dropWhile_not isSpace s
  rw [Option.mem_def.mp hc] at hfirst
  simpa using hfirst

/-- Dropping from the front stops before a character that is no whitespace. -/
theorem dropWhile_append_head (h : ∀ c ∈ middle.head?, isSpace c = false) (hne : middle ≠ []) :
    (before ++ middle).dropWhile isSpace = before.dropWhile isSpace ++ middle := by
  have hself : middle.dropWhile isSpace = middle := by
    obtain ⟨c, rest, rfl⟩ := List.exists_cons_of_ne_nil hne
    rw [List.dropWhile_cons_of_neg (by simpa using h c rfl)]
  rw [List.dropWhile_append, hself]
  split_ifs with hempty
  · rw [List.isEmpty_iff.mp hempty, List.nil_append]
  · rfl

theorem rdropWhile_append_last (h : ∀ c ∈ middle.getLast?, isSpace c = false)
    (hne : middle ≠ []) :
    (middle ++ after).rdropWhile isSpace = middle ++ after.rdropWhile isSpace := by
  have hreverse : ∀ c ∈ middle.reverse.head?, isSpace c = false := by
    rwa [List.head?_reverse]
  rw [List.rdropWhile, List.reverse_append,
    dropWhile_append_head hreverse (List.reverse_ne_nil_iff.mpr hne), List.reverse_append,
    List.reverse_reverse]
  rfl

/-- What is trimmed stays in the stripped text. -/
theorem strip_around (h : Trimmed middle) (hne : middle ≠ []) (before after : Text) :
    strip (before ++ (middle ++ after)) =
      before.dropWhile isSpace ++ (middle ++ after.rdropWhile isSpace) := by
  have hhead : ∀ c ∈ (middle ++ after).head?, isSpace c = false := by
    rw [List.head?_append_of_ne_nil middle hne]
    exact h.head
  have hlast : ∀ c ∈ (before.dropWhile isSpace ++ middle).getLast?, isSpace c = false := by
    rw [List.getLast?_append_of_ne_nil _ hne]
    exact h.last
  rw [strip, stripWhile, dropWhile_append_head hhead (List.append_ne_nil_of_left_ne_nil hne _),
    ← List.append_assoc,
    rdropWhile_append_last hlast (List.append_ne_nil_of_right_ne_nil _ hne), List.append_assoc]

theorem trimmed_strip (s : Text) : Trimmed (strip s) := by
  constructor
  · intro c hc
    obtain ⟨after, hafter⟩ : strip s <+: s.dropWhile isSpace :=
      List.rdropWhile_prefix isSpace _
    apply head_dropWhile s c
    rw [← hafter, List.head?_append, Option.mem_def.mp hc]
    rfl
  · intro c hc
    obtain ⟨hne, hlast⟩ := List.mem_getLast?_eq_getLast hc
    have hnot : ¬isSpace ((strip s).getLast hne) = true :=
      List.rdropWhile_last_not isSpace (s.dropWhile isSpace) hne
    rw [hlast]
    simpa using hnot

theorem strip_eq_self (h : Trimmed s) : strip s = s := by
  by_cases hs : s = []
  · rw [hs]
    rfl
  · simpa using strip_around h hs [] []

/-- A text is its stripped text with whitespace around it. -/
theorem exists_strip (s : Text) :
    ∃ before after, s = before ++ (strip s ++ after) ∧ Blank before ∧ Blank after := by
  refine ⟨s.takeWhile isSpace, (s.dropWhile isSpace).rtakeWhile isSpace, ?_, ?_, ?_⟩
  · rw [strip, stripWhile, List.rdropWhile_append_rtakeWhile, List.takeWhile_append_dropWhile]
  · exact fun c hc => List.mem_takeWhile_imp hc
  · exact fun c hc => List.mem_rtakeWhile_imp hc

theorem strip_append_blank (s : Text) (ht : Blank t) : strip (s ++ t) = strip s := by
  obtain ⟨before, after, hs, hbefore, hafter⟩ := exists_strip s
  by_cases hblank : strip s = []
  · rw [hblank]
    apply strip_eq_nil_iff.mpr
    exact List.forall_mem_append.mpr ⟨strip_eq_nil_iff.mp hblank, ht⟩
  · have hat : Blank (after ++ t) := List.forall_mem_append.mpr ⟨hafter, ht⟩
    have hst : s ++ t = before ++ (strip s ++ (after ++ t)) := by
      rw [← List.append_assoc, ← List.append_assoc, List.append_assoc before, ← hs]
    rw [hst, strip_around (trimmed_strip s) hblank, List.dropWhile_eq_nil_iff.mpr hbefore,
      List.rdropWhile_eq_nil_iff.mpr hat, List.nil_append, List.append_nil]

theorem strip_infix_strip (h : s <:+: t) : strip s <:+: strip t := by
  by_cases hblank : strip s = []
  · rw [hblank]
    exact List.nil_infix
  · obtain ⟨before, after, hs, -, -⟩ := exists_strip s
    obtain ⟨first, last, rfl⟩ := h
    have hst : first ++ s ++ last = (first ++ before) ++ (strip s ++ (after ++ last)) := by
      nth_rewrite 1 [hs]
      simp only [List.append_assoc]
    rw [hst, strip_around (trimmed_strip s) hblank, ← List.append_assoc]
    exact List.infix_append ..

theorem strip_prefix_strip (h : s <+: t) (hhead : ∀ c ∈ s.head?, isSpace c = false) :
    strip s <+: strip t := by
  by_cases hblank : strip s = []
  · rw [hblank]
    exact List.nil_prefix
  · obtain ⟨last, rfl⟩ := h
    obtain ⟨before, after, hs, hbefore, -⟩ := exists_strip s
    have hnone : before = [] := by
      cases before with
      | nil => rfl
      | cons c before =>
          have hc : c ∈ s.head? := by
            rw [hs]
            rfl
          exact absurd (hbefore c List.mem_cons_self) (by simp [hhead c hc])
    have hst : s ++ last = [] ++ (strip s ++ (after ++ last)) := by
      nth_rewrite 1 [hs]
      rw [hnone]
      simp only [List.append_assoc]
    rw [hst, strip_around (trimmed_strip s) hblank, List.dropWhile_nil, List.nil_append]
    exact List.prefix_append ..

end LocalGraphRag.Python
