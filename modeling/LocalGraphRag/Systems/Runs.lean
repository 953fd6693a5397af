import Mathlib.Data.List.Basic

/-!
# Runs of a state machine

A machine is a partial step function on labelled events, so that a run is a list
of events and can be computed. An event that is not possible has no successor.

## Implementation notes

The label carries every choice of the environment. A guard restricts the events
by the state that they meet, so a statement about guarded runs is one about runs
whose steps all meet a condition.
-/

namespace LocalGraphRag.Systems

variable {σ ι : Type} (step : σ → ι → Option σ)

/-- The state after some events, if each was possible. -/
def run (s : σ) (events : List ι) : Option σ := events.foldlM step s

/-- Each event meets the guard in the state where it happens. -/
def Guarded (G : σ → ι → Prop) : σ → List ι → Prop
  | _, [] => True
  | s, i :: events => G s i ∧ ∀ s', step s i = some s' → Guarded G s' events

section Runs
variable {step} {s s' : σ} {events : List ι}

@[simp] theorem run_nil : run step s [] = some s := rfl

theorem run_cons_eq_some {i : ι} : run step s (i :: events) = some s' ↔
    ∃ t, step s i = some t ∧ run step t events = some s' :=
  Option.bind_eq_some_iff

theorem run_append_eq_some {later : List ι} : run step s (events ++ later) = some s' ↔
    ∃ t, run step s events = some t ∧ run step t later = some s' := by
  induction events generalizing s with
  | nil => simp
  | cons i events ih =>
      simp only [List.cons_append, run_cons_eq_some, ih]
      constructor
      · rintro ⟨u, hu, t, ht, hs'⟩
        exact ⟨t, ⟨u, hu, ht⟩, hs'⟩
      · rintro ⟨t, ⟨u, hu, ht⟩, hs'⟩
        exact ⟨u, hu, t, ht, hs'⟩

theorem Guarded.of_prefix {G : σ → ι → Prop} {before : List ι} (h : Guarded step G s events)
    (hbefore : before <+: events) : Guarded step G s before := by
  induction before generalizing s events with
  | nil => trivial
  | cons i before ih =>
      obtain ⟨later, rfl⟩ := hbefore
      exact ⟨h.1, fun t ht => ih (h.2 t ht) (List.prefix_append ..)⟩

/-- What each guarded step preserves holds after every guarded run. -/
theorem Guarded.invariant {G : σ → ι → Prop} {I : σ → Prop}
    (hG : Guarded step G s events)
    (hstep : ∀ t i u, I t → G t i → step t i = some u → I u) (hs : I s)
    (h : run step s events = some s') : I s' := by
  induction events generalizing s with
  | nil =>
      cases h
      exact hs
  | cons i events ih =>
      obtain ⟨t, ht, h⟩ := run_cons_eq_some.mp h
      exact ih (hG.2 t ht) (hstep s i t hs hG.1 ht) h

theorem guarded_of_forall {G : σ → ι → Prop} (h : ∀ i ∈ events, ∀ t, G t i) :
    Guarded step G s events := by
  induction events generalizing s with
  | nil => trivial
  | cons i events ih =>
      exact ⟨h i List.mem_cons_self s, fun _ _ => ih fun j hj => h j (List.mem_cons_of_mem i hj)⟩

theorem guarded_true : Guarded step (fun _ _ => True) s events :=
  guarded_of_forall fun _ _ _ => trivial

theorem guarded_append {G : σ → ι → Prop} {later : List ι} (h : Guarded step G s events)
    (hlater : ∀ t, run step s events = some t → Guarded step G t later) :
    Guarded step G s (events ++ later) := by
  induction events generalizing s with
  | nil => exact hlater s rfl
  | cons i events ih =>
      refine ⟨h.1, fun t ht => ih (h.2 t ht) fun u hu => hlater u ?_⟩
      exact run_cons_eq_some.mpr ⟨t, ht, hu⟩

/-- A run that is not guarded has a first step that does not meet the guard. -/
theorem exists_of_not_guarded {G : σ → ι → Prop} (h : run step s events = some s')
    (hG : ¬ Guarded step G s events) : ∃ before i later t u,
      events = before ++ i :: later ∧ run step s before = some t ∧ Guarded step G s before ∧
        ¬ G t i ∧ step t i = some u ∧ run step u later = some s' := by
  induction events generalizing s with
  | nil => exact absurd trivial hG
  | cons i events ih =>
      obtain ⟨u, hu, hrest⟩ := run_cons_eq_some.mp h
      by_cases hi : G s i
      · have hlater : ¬ Guarded step G u events := by
          intro hguarded
          apply hG
          refine ⟨hi, fun t ht => ?_⟩
          cases hu.symm.trans ht
          exact hguarded
        obtain ⟨before, j, later, t, v, rfl, ht, hbefore, hj, hv, hlast⟩ := ih hrest hlater
        refine ⟨i :: before, j, later, t, v, rfl, run_cons_eq_some.mpr ⟨u, hu, ht⟩,
          ⟨hi, fun w hw => ?_⟩, hj, hv, hlast⟩
        cases hu.symm.trans hw
        exact hbefore
      · exact ⟨[], i, events, s, u, rfl, rfl, trivial, hi, hu, hrest⟩

/-- What each step preserves holds after every run. -/
theorem run_invariant {I : σ → Prop} (hstep : ∀ t i u, I t → step t i = some u → I u)
    (hs : I s) (h : run step s events = some s') : I s' :=
  guarded_true.invariant (fun t i u ht _ hu => hstep t i u ht hu) hs h

end Runs

end LocalGraphRag.Systems
