import Mathlib.Data.List.Basic
import Mathlib.Data.List.Forall2

/-!
# Patterns without repetition

A pattern is matched by a part of a list, with regard to the two neighbours of the positions
where the pattern asks for them. The matcher finds the rests that the matches at a position
leave, and a search tries one position after the other.

## Implementation notes

A match is a part with what stands before and after it. The matcher carries the last
element before the position instead of the whole part before it.
-/

namespace LocalGraphRag.Sequences

/-- A pattern over the elements of a list. -/
inductive Pattern (α : Type) where
  | empty
  | one (p : α → Bool)
  | between (p : Option α → Option α → Bool)
  | opt (a : Pattern α)
  | seq (a b : Pattern α)

namespace Pattern
variable {α : Type}

/-- The pattern is matched by `m`, with `before` and `after` around it. -/
def Matches : Pattern α → List α → List α → List α → Prop
  | empty, _, m, _ => m = []
  | one p, _, m, _ => ∃ c, p c = true ∧ m = [c]
  | between p, before, m, after => m = [] ∧ p before.getLast? after.head? = true
  | opt a, before, m, after => m = [] ∨ a.Matches before m after
  | seq a b, before, m, after => ∃ m₁ m₂, m = m₁ ++ m₂ ∧
      a.Matches before m₁ (m₂ ++ after) ∧ b.Matches (before ++ m₁) m₂ after

/-- What the matches at a position leave, each with the last element before it. -/
def rests : Pattern α → Option α → List α → List (Option α × List α)
  | empty, last, s => [(last, s)]
  | one _, _, [] => []
  | one p, _, c :: s => if p c then [(some c, s)] else []
  | between p, last, s => if p last s.head? then [(last, s)] else []
  | opt a, last, s => a.rests last s ++ [(last, s)]
  | seq a b, last, s => (a.rests last s).flatMap fun r => b.rests r.1 r.2

/-- The matcher finds what the matches leave. -/
theorem mem_rests (r : Pattern α) (before s : List α) (x : Option α × List α) :
    x ∈ r.rests before.getLast? s ↔
      ∃ m, s = m ++ x.2 ∧ x.1 = (before ++ m).getLast? ∧ r.Matches before m x.2 := by
  induction r generalizing before s x with
  | empty =>
      simp only [rests, Matches, List.mem_singleton]
      constructor
      · intro h
        exact ⟨[], by simp [h], by simp [h], rfl⟩
      · intro h
        obtain ⟨m, rfl, hlast, rfl⟩ := h
        exact Prod.ext (by simpa using hlast) rfl
  | one p =>
      cases s with
      | nil => simp [rests, Matches]
      | cons c s =>
          simp only [rests, Matches]
          constructor
          · intro h
            split_ifs at h with hp
            · obtain rfl := List.mem_singleton.mp h
              exact ⟨[c], rfl, by simp, c, hp, rfl⟩
            · exact absurd h List.not_mem_nil
          · intro h
            obtain ⟨m, hs, hlast, d, hp, rfl⟩ := h
            obtain ⟨rfl, rfl⟩ := List.cons.inj hs
            rw [if_pos hp, List.mem_singleton]
            exact Prod.ext (by simpa using hlast) rfl
  | between p =>
      simp only [rests, Matches]
      constructor
      · intro h
        split_ifs at h with hp
        · obtain rfl := List.mem_singleton.mp h
          exact ⟨[], rfl, by simp, rfl, hp⟩
        · exact absurd h List.not_mem_nil
      · intro h
        obtain ⟨m, rfl, hlast, rfl, hp⟩ := h
        rw [List.nil_append, if_pos hp, List.mem_singleton]
        exact Prod.ext (by simpa using hlast) rfl
  | opt a ih =>
      rw [rests, List.mem_append, ih, List.mem_singleton]
      constructor
      · intro h
        obtain h | rfl := h
        · obtain ⟨m, hs, hlast, hm⟩ := h
          exact ⟨m, hs, hlast, Or.inr hm⟩
        · exact ⟨[], rfl, by simp, Or.inl rfl⟩
      · intro h
        obtain ⟨m, hs, hlast, rfl | hm⟩ := h
        · exact Or.inr (Prod.ext (by simpa using hlast) hs.symm)
        · exact Or.inl ⟨m, hs, hlast, hm⟩
  | seq a b iha ihb =>
      rw [rests, List.mem_flatMap]
      constructor
      · intro h
        obtain ⟨y, hy, hx⟩ := h
        obtain ⟨m₁, rfl, hlast, ha⟩ := (iha before s y).mp hy
        rw [hlast] at hx
        obtain ⟨m₂, hrest, hlast', hb⟩ := (ihb (before ++ m₁) y.2 x).mp hx
        rw [hrest] at ha
        refine ⟨m₁ ++ m₂, ?_, ?_, m₁, m₂, rfl, ha, hb⟩
        · rw [hrest, List.append_assoc]
        · rw [hlast', List.append_assoc]
      · intro h
        obtain ⟨m, rfl, hlast, m₁, m₂, rfl, ha, hb⟩ := h
        refine ⟨((before ++ m₁).getLast?, m₂ ++ x.2), ?_, ?_⟩
        · exact (iha ..).mpr ⟨m₁, List.append_assoc .., rfl, ha⟩
        · exact (ihb ..).mpr ⟨m₂, rfl, by rw [hlast, List.append_assoc], hb⟩

/-- A match at this position or a later one. -/
def searchFrom (r : Pattern α) : Option α → List α → Bool
  | last, [] => !(r.rests last []).isEmpty
  | last, c :: s => !(r.rests last (c :: s)).isEmpty || r.searchFrom (some c) s

/-- `re.search`. -/
def search (r : Pattern α) (s : List α) : Bool := r.searchFrom none s

/-- The pattern is matched by a part of the list. -/
def Occurs (r : Pattern α) (s : List α) : Prop :=
  ∃ before m after, s = before ++ m ++ after ∧ r.Matches before m after

theorem rests_ne_nil_iff (r : Pattern α) (before s : List α) :
    (!(r.rests before.getLast? s).isEmpty) = true ↔
      ∃ m after, s = m ++ after ∧ r.Matches before m after := by
  rw [Bool.not_eq_true', List.isEmpty_eq_false_iff_exists_mem]
  constructor
  · intro h
    obtain ⟨x, hx⟩ := h
    obtain ⟨m, hs, -, hm⟩ := (mem_rests ..).mp hx
    exact ⟨m, x.2, hs, hm⟩
  · intro h
    obtain ⟨m, after, hs, hm⟩ := h
    exact ⟨((before ++ m).getLast?, after), (mem_rests ..).mpr ⟨m, hs, rfl, hm⟩⟩

theorem searchFrom_iff (r : Pattern α) (start s : List α) :
    r.searchFrom start.getLast? s = true ↔
      ∃ before m after, s = before ++ m ++ after ∧ r.Matches (start ++ before) m after := by
  induction s generalizing start with
  | nil =>
      rw [searchFrom, rests_ne_nil_iff]
      constructor
      · intro h
        obtain ⟨m, after, hs, hm⟩ := h
        exact ⟨[], m, after, hs, by rwa [List.append_nil]⟩
      · intro h
        obtain ⟨before, m, after, hs, hm⟩ := h
        obtain ⟨hparts, rfl⟩ := List.append_eq_nil_iff.mp hs.symm
        obtain ⟨rfl, rfl⟩ := List.append_eq_nil_iff.mp hparts
        exact ⟨[], [], rfl, by rwa [List.append_nil] at hm⟩
  | cons c s ih =>
      have hnext : r.searchFrom (some c) s = true ↔
          ∃ before m after, s = before ++ m ++ after ∧
            r.Matches (start ++ [c] ++ before) m after := by
        rw [← ih (start ++ [c]), List.getLast?_concat]
      rw [searchFrom, Bool.or_eq_true, rests_ne_nil_iff, hnext]
      constructor
      · intro h
        obtain ⟨m, after, hs, hm⟩ | ⟨before, m, after, rfl, hm⟩ := h
        · exact ⟨[], m, after, hs, by rwa [List.append_nil]⟩
        · exact ⟨c :: before, m, after, rfl, by rwa [List.append_assoc] at hm⟩
      · intro h
        obtain ⟨before, m, after, hs, hm⟩ := h
        cases before with
        | nil => exact Or.inl ⟨m, after, hs, by rwa [List.append_nil] at hm⟩
        | cons d before =>
            obtain ⟨rfl, rfl⟩ := List.cons.inj hs
            exact Or.inr ⟨before, m, after, rfl, by rwa [List.append_assoc]⟩

/-- A search finds the pattern exactly if it occurs. -/
theorem search_iff (r : Pattern α) (s : List α) : r.search s = true ↔ r.Occurs s :=
  searchFrom_iff r [] s

instance (r : Pattern α) (s : List α) : Decidable (r.Occurs s) :=
  decidable_of_iff _ (search_iff r s)

/-- The elements one after the other, as far as `same` tells them apart. -/
def literal (same : α → α → Bool) : List α → Pattern α
  | [] => empty
  | c :: s => seq (one (same c)) (literal same s)

theorem matches_literal {same : α → α → Bool} {s before m after : List α} :
    (literal same s).Matches before m after ↔
      List.Forall₂ (fun c d => same c d = true) s m := by
  induction s generalizing before m with
  | nil => simp [literal, Matches]
  | cons c s ih =>
      rw [literal, Matches]
      constructor
      · intro h
        obtain ⟨m₁, m₂, rfl, ⟨d, hd, rfl⟩, hm⟩ := h
        exact .cons hd (ih.mp hm)
      · intro h
        obtain ⟨d, m, hd, hm, rfl⟩ := List.forall₂_cons_left_iff.mp h
        exact ⟨[d], m, rfl, ⟨d, hd, rfl⟩, ih.mpr hm⟩

end Pattern

end LocalGraphRag.Sequences
