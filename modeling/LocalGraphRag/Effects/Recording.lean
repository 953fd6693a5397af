import LocalGraphRag.Effects.Prog
import Mathlib.Data.List.Infix

/-!
# Recorded runs

A machine that also records the calls it made with what they returned. Programs do not
read the record, so results and states are those of the machine itself; a statement about
the order of the calls is one about the state of the recording machine.

A discipline says which calls are due after which record. That every call was due when it
was made is kept by any call that is due, and is read off the record afterwards.
-/

namespace LocalGraphRag.Effects

variable {Op : Type} {Ret : Op → Type} {ε α σ χ : Type}

/-- A call that was made, with its outcome. -/
abbrev Executed (Ret : Op → Type) (ε : Type) := (o : Op) × Except ε (Ret o)

/-- The call returned. -/
def Executed.Succeeded (x : Executed Ret ε) : Prop := ∃ a, x.2 = .ok a

/-- The machine with a record of its calls. -/
def recording (step : σ → (o : Op) → χ → Except ε (Ret o) × σ) (w : σ × List (Executed Ret ε))
    (o : Op) (c : χ) : Except ε (Ret o) × (σ × List (Executed Ret ε)) :=
  ((step w.1 o c).1, (step w.1 o c).2, w.2 ++ [⟨o, (step w.1 o c).1⟩])

/-- The record changes neither the result of a run nor the state that it leaves. -/
theorem run_recording (step : σ → (o : Op) → χ → Except ε (Ret o) × σ) (m : Prog Op Ret ε α)
    (cs : List χ) (w : σ × List (Executed Ret ε)) :
    (run (recording step) m cs w).1 = (run step m cs w.1).1 ∧
      (run (recording step) m cs w).2.1 = (run step m cs w.1).2 := by
  induction m generalizing cs w with
  | ret a => simp
  | fail e => simp
  | call o k ih =>
      cases cs with
      | nil => exact ⟨rfl, rfl⟩
      | cons c cs => exact ih _ cs _

@[simp] theorem recording_fst (step : σ → (o : Op) → χ → Except ε (Ret o) × σ)
    (w : σ × List (Executed Ret ε)) (o : Op) (c : χ) :
    (recording step w o c).1 = (step w.1 o c).1 := rfl

@[simp] theorem recording_snd (step : σ → (o : Op) → χ → Except ε (Ret o) × σ)
    (w : σ × List (Executed Ret ε)) (o : Op) (c : χ) :
    (recording step w o c).2 = ((step w.1 o c).2, w.2 ++ [⟨o, (step w.1 o c).1⟩]) := rfl

section Discipline

/-- Every call of the record was due when it was made. -/
def Warranted (due : List (Executed Ret ε) → Op → Prop) (record : List (Executed Ret ε)) : Prop :=
  ∀ before x, before ++ [x] <+: record → due before x.1

variable {due : List (Executed Ret ε) → Op → Prop} {record : List (Executed Ret ε)}

theorem warranted_nil : Warranted due [] := by
  intro before x h
  exact absurd (List.prefix_nil.mp h) (by simp)

/-- What begins a longer record begins the shorter one, or is all of the longer one. -/
theorem concat_prefix_concat {before record : List α} {x y : α}
    (h : before ++ [x] <+: record ++ [y]) :
    before ++ [x] <+: record ∨ before = record ∧ x = y := by
  obtain h | h := List.prefix_concat_iff.mp h
  · obtain ⟨hbefore, hx⟩ := List.append_inj' h rfl
    exact Or.inr ⟨hbefore, List.singleton_inj.mp hx⟩
  · exact Or.inl h

theorem Warranted.concat (h : Warranted due record) {x : Executed Ret ε} (hx : due record x.1) :
    Warranted due (record ++ [x]) := by
  intro before y hy
  obtain hy | ⟨rfl, rfl⟩ := concat_prefix_concat hy
  · exact h before y hy
  · exact hx

/-- A member of a list has a place in it. -/
theorem exists_concat_prefix {l : List α} {x : α} (hx : x ∈ l) :
    ∃ before, before ++ [x] <+: l := by
  obtain ⟨before, after, rfl⟩ := List.append_of_mem hx
  exact ⟨before, after, by simp⟩

/-- Of two places in a list, one is before the other unless they are the same. -/
theorem place_cases {l before before' : List α} {x y : α} (h : before ++ [x] <+: l)
    (h' : before' ++ [y] <+: l) :
    before ++ [x] <+: before' ∨ (before = before' ∧ x = y) ∨ before' ++ [y] <+: before := by
  have hstart := (List.prefix_append before [x]).trans h
  have hstart' := (List.prefix_append before' [y]).trans h'
  obtain hlt | heq | hgt := Nat.lt_trichotomy before.length before'.length
  · refine Or.inl (List.prefix_of_prefix_length_le h hstart' ?_)
    rwa [List.length_append, List.length_singleton]
  · have hsame := (List.prefix_of_prefix_length_le h h' (by simp [heq])).eq_of_length
      (by simp [heq])
    obtain ⟨hbefore, hx⟩ := List.append_inj' hsame rfl
    exact Or.inr (Or.inl ⟨hbefore, List.singleton_inj.mp hx⟩)
  · refine Or.inr (Or.inr (List.prefix_of_prefix_length_le h' hstart ?_))
    rwa [List.length_append, List.length_singleton]

/-- Of two members of a list, one stands before the other unless they are the same. -/
theorem eq_or_before {l : List α} {x y : α} (hx : x ∈ l) (hy : y ∈ l) :
    x = y ∨ (∃ before, before ++ [y] <+: l ∧ x ∈ before) ∨
      ∃ before, before ++ [x] <+: l ∧ y ∈ before := by
  obtain ⟨left, after, rfl⟩ := List.append_of_mem hx
  obtain hy | hy := List.mem_append.mp hy
  · exact Or.inr (Or.inr ⟨left, ⟨after, by simp⟩, hy⟩)
  · obtain rfl | hy := List.mem_cons.mp hy
    · exact Or.inl rfl
    · obtain ⟨middle, right, rfl⟩ := List.append_of_mem hy
      exact Or.inr (Or.inl ⟨left ++ x :: middle, ⟨right, by simp⟩, by simp⟩)

theorem Warranted.exists_of_mem (h : Warranted due record) {x : Executed Ret ε}
    (hx : x ∈ record) : ∃ before, before ++ [x] <+: record ∧ due before x.1 := by
  obtain ⟨before, hbefore⟩ := exists_concat_prefix hx
  exact ⟨before, hbefore, h before x hbefore⟩

end Discipline

end LocalGraphRag.Effects
