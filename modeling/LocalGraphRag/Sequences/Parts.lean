import Mathlib.Data.Finset.Disjoint
import Mathlib.Data.Finset.Lattice.Basic
import Mathlib.Data.List.Basic

/-!
# Parts of a finite set, in order

A list of sets that partitions a finite set: none is empty, no two overlap, and together they
are the set. The place of a part in the list is its number.
-/

namespace LocalGraphRag.Sequences

variable {α : Type*}

/-- The sets partition `whole`. -/
structure Parts (parts : List (Finset α)) (whole : Finset α) : Prop where
  nonempty : ∀ part ∈ parts, part.Nonempty
  disjoint : parts.Pairwise Disjoint
  mem_iff : ∀ a, a ∈ whole ↔ ∃ part ∈ parts, a ∈ part

variable {parts parts' : List (Finset α)} {whole whole' part : Finset α} {a : α} {i j : ℕ}

theorem parts_nil : Parts ([] : List (Finset α)) ∅ := by
  constructor <;> simp

/-- `a` is in the part with number `i`. -/
def InPart (parts : List (Finset α)) (i : ℕ) (a : α) : Prop :=
  ∃ part, parts[i]? = some part ∧ a ∈ part

instance [DecidableEq α] : Decidable (InPart parts i a) :=
  decidable_of_iff (a ∈ parts.getD i ∅) (by
    rw [InPart, List.getD_eq_getElem?_getD]
    cases parts[i]? <;> simp)

theorem exists_inPart : (∃ i, InPart parts i a) ↔ ∃ part ∈ parts, a ∈ part := by
  constructor
  · intro ⟨i, part, hpart, ha⟩
    exact ⟨part, List.mem_of_getElem? hpart, ha⟩
  · intro ⟨part, hpart, ha⟩
    obtain ⟨i, hi⟩ := List.mem_iff_getElem?.mp hpart
    exact ⟨i, part, hi, ha⟩

theorem InPart.lt_length (h : InPart parts i a) : i < parts.length := by
  obtain ⟨part, hpart, -⟩ := h
  exact (List.getElem?_eq_some_iff.mp hpart).1

/-- Lists of sets are the same where their elements have the same numbers. -/
theorem ext_inPart (hlen : parts.length = parts'.length)
    (h : ∀ i a, InPart parts i a ↔ InPart parts' i a) : parts = parts' := by
  apply List.ext_getElem hlen
  intro i hi hi'
  ext a
  have hsame := h i a
  simpa only [InPart, List.getElem?_eq_getElem hi, List.getElem?_eq_getElem hi',
    Option.some.injEq, exists_eq_left'] using hsame

theorem inPart_append : InPart (parts ++ parts') i a ↔
    InPart parts i a ∨ parts.length ≤ i ∧ InPart parts' (i - parts.length) a := by
  by_cases hi : i < parts.length
  · simp [InPart, List.getElem?_append_left hi, Nat.not_le.mpr hi]
  · have hle := Nat.not_lt.mp hi
    simp [InPart, List.getElem?_append_right hle, hle]

/-- Adding an element to one of the parts. -/
theorem inPart_modify_insert [DecidableEq α] {b : α} : InPart (parts.modify j (insert b)) i a ↔
    InPart parts i a ∨ i = j ∧ a = b ∧ j < parts.length := by
  simp only [InPart, List.getElem?_modify]
  by_cases hij : j = i
  · subst hij
    cases hpart : parts[j]? with
    | none =>
        have hlen := List.getElem?_eq_none_iff.mp hpart
        simp
        omega
    | some part =>
        have hlen := (List.getElem?_eq_some_iff.mp hpart).1
        simp [hlen, or_comm]
  · cases hpart : parts[i]? with
    | none => simp [hij, Ne.symm hij]
    | some part => simp [hij, Ne.symm hij]

/-- In disjoint parts an element has one number. -/
theorem InPart.unique (h : parts.Pairwise Disjoint) (hi : InPart parts i a)
    (hj : InPart parts j a) : i = j := by
  have hnot : ∀ {i j : ℕ}, i < j → InPart parts i a → ¬InPart parts j a := by
    intro i j hlt ⟨part, hpart, ha⟩ ⟨part', hpart', ha'⟩
    obtain ⟨hi, rfl⟩ := List.getElem?_eq_some_iff.mp hpart
    obtain ⟨hj, rfl⟩ := List.getElem?_eq_some_iff.mp hpart'
    exact Finset.disjoint_left.mp (List.pairwise_iff_getElem.mp h i j hi hj hlt) ha ha'
  obtain hlt | heq | hlt := lt_trichotomy i j
  · exact absurd hj (hnot hlt hi)
  · exact heq
  · exact absurd hi (hnot hlt hj)

/-- Where every element has one number, the parts are disjoint. -/
theorem pairwise_disjoint_of_unique
    (h : ∀ a i j, InPart parts i a → InPart parts j a → i = j) : parts.Pairwise Disjoint := by
  apply List.pairwise_iff_getElem.mpr
  intro i j hi hj hlt
  apply Finset.disjoint_left.mpr
  intro a ha ha'
  have heq := h a i j ⟨_, List.getElem?_eq_getElem hi, ha⟩ ⟨_, List.getElem?_eq_getElem hj, ha'⟩
  exact absurd heq hlt.ne

/-- Partitions of two sets without common elements, one after the other. -/
theorem Parts.append [DecidableEq α] (h : Parts parts whole) (h' : Parts parts' whole')
    (hdisjoint : Disjoint whole whole') : Parts (parts ++ parts') (whole ∪ whole') := by
  constructor
  · intro part hpart
    obtain hpart | hpart := List.mem_append.mp hpart
    · exact h.nonempty part hpart
    · exact h'.nonempty part hpart
  · apply List.pairwise_append.mpr
    refine ⟨h.disjoint, h'.disjoint, ?_⟩
    intro part hpart part' hpart'
    apply Finset.disjoint_left.mpr
    intro a ha ha'
    exact Finset.disjoint_left.mp hdisjoint ((h.mem_iff a).mpr ⟨part, hpart, ha⟩)
      ((h'.mem_iff a).mpr ⟨part', hpart', ha'⟩)
  · intro a
    simp only [Finset.mem_union, h.mem_iff, h'.mem_iff, List.mem_append, or_and_right, exists_or]

/-- The order of the parts does not matter. -/
theorem Parts.perm (h : Parts parts whole) (hperm : parts.Perm parts') : Parts parts' whole := by
  constructor
  · exact fun part hpart => h.nonempty part (hperm.mem_iff.mpr hpart)
  · exact (hperm.pairwise_iff fun hdisjoint => hdisjoint.symm).mp h.disjoint
  · intro a
    rw [h.mem_iff]
    simp only [hperm.mem_iff]

end LocalGraphRag.Sequences
