import Mathlib.Data.List.Basic
import Mathlib.Data.List.Induction

/-!
# Histories of calls

A fact about a component often holds because of a call that established it, with
nothing after it that ended it. `Since` says so of a list of calls, earliest first. Other
facts are about the state and all calls so far, and each call preserves them.
-/

namespace LocalGraphRag.Systems

variable {σ α : Type}

/-- Some call of the history starts it, and every later one keeps it. -/
def Since (starts keeps : α → Prop) (history : List α) : Prop :=
  ∃ before c after, history = before ++ c :: after ∧ starts c ∧ ∀ d ∈ after, keeps d

section History
variable {starts keeps starts' keeps' : α → Prop} {history : List α}

@[simp] theorem not_since_nil : ¬ Since starts keeps [] := by
  rintro ⟨before, c, after, h, -, -⟩
  cases before <;> cases h

/-- The last call starts it, or keeps what held before. -/
theorem since_concat {c : α} : Since starts keeps (history ++ [c]) ↔
    starts c ∨ (keeps c ∧ Since starts keeps history) := by
  constructor
  · rintro ⟨before, d, after, h, hd, hafter⟩
    obtain rfl | ⟨after, e, rfl⟩ := after.eq_nil_or_concat
    · obtain ⟨-, hc⟩ := List.append_inj' h rfl
      cases hc
      exact Or.inl hd
    · have hsplit : history ++ [c] = (before ++ d :: after) ++ [e] := by
        rw [h, List.concat_eq_append, List.append_assoc, List.cons_append]
      obtain ⟨hhistory, hc⟩ := List.append_inj' hsplit rfl
      cases hc
      rw [List.concat_eq_append] at hafter
      exact Or.inr ⟨hafter _ (by simp), before, d, after, hhistory, hd,
        fun x hx => hafter x (by simp [hx])⟩
  · rintro (hc | ⟨hc, before, d, after, rfl, hd, hafter⟩)
    · exact ⟨history, c, [], rfl, hc, by simp⟩
    · refine ⟨before, d, after ++ [c], by simp, hd, fun x hx => ?_⟩
      obtain hx | hx := List.mem_append.mp hx
      · exact hafter x hx
      · rwa [List.mem_singleton.mp hx]

theorem Since.exists_starts (h : Since starts keeps history) : ∃ c ∈ history, starts c := by
  obtain ⟨before, c, after, rfl, hc, -⟩ := h
  exact ⟨c, by simp, hc⟩

theorem Since.mono (h : Since starts keeps history)
    (hstarts : ∀ c ∈ history, starts c → starts' c)
    (hkeeps : ∀ c ∈ history, keeps c → keeps' c) : Since starts' keeps' history := by
  obtain ⟨before, c, after, rfl, hc, hafter⟩ := h
  exact ⟨before, c, after, rfl, hstarts c (by simp) hc,
    fun d hd => hkeeps d (by simp [hd]) (hafter d hd)⟩

/-- What later calls cannot have started, an earlier one did. -/
theorem Since.of_append {before after : List α} (h : Since starts keeps (before ++ after))
    (hafter : ∀ c ∈ after, ¬ starts c) :
    Since starts keeps before ∧ ∀ c ∈ after, keeps c := by
  induction after using List.reverseRecOn with
  | nil => exact ⟨by simpa using h, by simp⟩
  | append_singleton after c ih =>
      rw [← List.append_assoc, since_concat] at h
      obtain hc | ⟨hc, hbefore⟩ := h
      · exact absurd hc (hafter c (by simp))
      · obtain ⟨hsince, hkeeps⟩ := ih hbefore fun d hd => hafter d (List.mem_append_left _ hd)
        refine ⟨hsince, fun d hd => ?_⟩
        obtain hd | hd := List.mem_append.mp hd
        · exact hkeeps d hd
        · rwa [List.mem_singleton.mp hd]

/-- Nothing that started before a call that ends it is left. -/
theorem Since.after_of_ends {before after : List α} {c : α}
    (h : Since starts keeps (before ++ c :: after)) (hstarts : ¬ starts c) (hkeeps : ¬ keeps c) :
    ∃ d ∈ after, starts d := by
  by_contra hnone
  have hlater : ∀ d ∈ c :: after, ¬ starts d := by
    intro d hd hstart
    obtain rfl | hd := List.mem_cons.mp hd
    · exact hstarts hstart
    · exact hnone ⟨d, hd, hstart⟩
  exact hkeeps ((h.of_append hlater).2 c List.mem_cons_self)

/-- Calls that neither start nor end it can be left out. -/
theorem since_filter {p : α → Prop} [DecidablePred p]
    (hp : ∀ c ∈ history, ¬ p c → ¬ starts c ∧ keeps c) :
    Since starts keeps (history.filter p) ↔ Since starts keeps history := by
  induction history using List.reverseRecOn with
  | nil => rfl
  | append_singleton history c ih =>
      have hrest := ih fun d hd => hp d (List.mem_append_left _ hd)
      rw [List.filter_append, since_concat]
      by_cases hc : p c
      · rw [List.filter_singleton, decide_eq_true hc, cond_true, since_concat, hrest]
      · obtain ⟨hstarts, hkeeps⟩ := hp c (by simp) hc
        rw [List.filter_singleton, decide_eq_false hc, cond_false, List.append_nil, hrest]
        simp [hstarts, hkeeps]

/-- Where each step starts the fact, or keeps it if it holds, a run has it exactly if
its history says so. -/
theorem holds_foldl_iff (step : σ → α → σ) (holds : σ → Prop) {s : σ} (hs : ¬ holds s)
    (hstep : ∀ before c, before ++ [c] <+: history →
      (holds (step (before.foldl step s) c) ↔
        starts c ∨ (keeps c ∧ holds (before.foldl step s)))) :
    holds (history.foldl step s) ↔ Since starts keeps history := by
  induction history using List.reverseRecOn with
  | nil => simpa using hs
  | append_singleton history c ih =>
      rw [List.foldl_append, List.foldl_cons, List.foldl_nil, hstep history c List.prefix_rfl,
        since_concat, ih]
      exact fun before d h => hstep before d (h.trans (List.prefix_append ..))

/-- What each step of a run preserves, given what the run has gone through, holds at its
end. -/
theorem foldl_invariant (step : σ → α → σ) (holds : σ → List α → Prop) {s : σ} (hs : holds s [])
    (hstep : ∀ before c, before ++ [c] <+: history → ∀ t, holds t before →
      holds (step t c) (before ++ [c])) :
    holds (history.foldl step s) history := by
  induction history using List.reverseRecOn with
  | nil => exact hs
  | append_singleton history c ih =>
      rw [List.foldl_append, List.foldl_cons, List.foldl_nil]
      apply hstep history c List.prefix_rfl
      apply ih
      exact fun before d h => hstep before d (h.trans (List.prefix_append ..))

end History

end LocalGraphRag.Systems
