import Mathlib.Data.List.Basic

/-!
# Maximal runs

The maximal nonempty parts of a list whose elements all satisfy a predicate, in order.
-/

namespace LocalGraphRag.Sequences

variable {α : Type} {p : α → Bool} {s t : List α}

/-- `re.findall` of one or more elements of a class. -/
def maximalRuns (p : α → Bool) (s : List α) : List (List α) :=
  (s.splitOnP fun c => !p c).filter fun run => !run.isEmpty

@[simp] theorem maximalRuns_nil : maximalRuns p [] = [] := rfl

theorem maximalRuns_append_cons {c : α} (hc : p c = false) (s t : List α) :
    maximalRuns p (s ++ c :: t) = maximalRuns p s ++ maximalRuns p t := by
  rw [maximalRuns, List.splitOnP_append_cons s t (by simp [hc]), List.filter_append]
  rfl

theorem maximalRuns_cons_of_not {c : α} (hc : p c = false) (t : List α) :
    maximalRuns p (c :: t) = maximalRuns p t := by
  have h := maximalRuns_append_cons hc [] t
  rwa [List.nil_append] at h

/-- No run goes over an end of the second part. -/
theorem maximalRuns_around {s t u : List α} (hs : ∀ c ∈ s.getLast?, p c = false)
    (hu : ∀ c ∈ u.head?, p c = false) :
    maximalRuns p (s ++ t ++ u) = maximalRuns p s ++ maximalRuns p t ++ maximalRuns p u := by
  have hright : maximalRuns p (t ++ u) = maximalRuns p t ++ maximalRuns p u := by
    cases u with
    | nil => rw [List.append_nil, maximalRuns_nil, List.append_nil]
    | cons c u =>
        have hc := hu c rfl
        rw [maximalRuns_append_cons hc, maximalRuns_cons_of_not hc]
  rw [List.append_assoc, List.append_assoc, ← hright]
  obtain rfl | ⟨s, c, rfl⟩ := List.eq_nil_or_concat' s
  · rfl
  · have hc := hs c List.getLast?_concat
    rw [List.append_assoc, List.singleton_append, maximalRuns_append_cons hc,
      maximalRuns_append_cons hc, maximalRuns_nil, List.append_nil]

/-- What the runs hold is what satisfies the predicate. -/
theorem flatten_maximalRuns (s : List α) : (maximalRuns p s).flatten = s.filter p := by
  have hflatten : ∀ runs : List (List α),
      (runs.filter fun run => !run.isEmpty).flatten = runs.flatten := by
    intro runs
    induction runs with
    | nil => rfl
    | cons run runs ih => cases run <;> simpa using ih
  rw [maximalRuns, hflatten]
  induction s with
  | nil => rfl
  | cons c s ih =>
      rw [List.splitOnP_cons_eq_if_modifyHead]
      cases hc : p c with
      | false => simpa [hc] using ih
      | true =>
          obtain ⟨run, runs, hruns⟩ := List.exists_cons_of_ne_nil
            (List.splitOnP_ne_nil (fun c => !p c) s)
          rw [hruns] at ih ⊢
          simpa [hc] using ih

theorem of_mem_maximalRuns {run : List α} (h : run ∈ maximalRuns p s) {c : α} (hc : c ∈ run) :
    p c = true := by
  have hmem : c ∈ (maximalRuns p s).flatten := List.mem_flatten.mpr ⟨run, h, hc⟩
  rw [flatten_maximalRuns] at hmem
  exact (List.mem_filter.mp hmem).2

end LocalGraphRag.Sequences
