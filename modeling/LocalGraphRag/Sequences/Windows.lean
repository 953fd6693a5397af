import Mathlib.Data.List.Basic
import Mathlib.Data.List.Infix

/-!
# Overlapping windows

A sequence is cut into windows, each of which may repeat an end of the window before it.
The rest of the windows, one after the other, is the sequence, up to elements that do not
count.
-/

namespace LocalGraphRag.Sequences

/-- A window: what it repeats, and what is new in it. -/
structure Window (α : Type) where
  overlap : List α
  fresh : List α

variable {α : Type}

def Window.content (w : Window α) : List α := w.overlap ++ w.fresh

/-- Each window repeats at most `k` elements, from the end of the window before it; the
first one comes after `prev`. -/
def Overlapping (k : Nat) : List α → List (Window α) → Prop
  | _, [] => True
  | prev, w :: windows =>
      w.overlap <:+ prev ∧ w.overlap.length ≤ k ∧ Overlapping k w.content windows

/-- The content of the last window. -/
def lastContent : List α → List (Window α) → List α
  | prev, [] => prev
  | _, w :: windows => lastContent w.content windows

variable {k : Nat} {prev : List α} {windows windows' : List (Window α)} {w : Window α}

theorem overlapping_append : Overlapping k prev (windows ++ windows') ↔
    Overlapping k prev windows ∧ Overlapping k (lastContent prev windows) windows' := by
  induction windows generalizing prev with
  | nil => simp [Overlapping, lastContent]
  | cons w windows ih => simp only [List.cons_append, Overlapping, lastContent, ih, and_assoc]

theorem overlapping_concat : Overlapping k prev (windows ++ [w]) ↔
    Overlapping k prev windows ∧ w.overlap <:+ lastContent prev windows ∧
      w.overlap.length ≤ k := by
  rw [overlapping_append]
  simp [Overlapping]

@[simp] theorem lastContent_concat :
    lastContent prev (windows ++ [w]) = w.content := by
  induction windows generalizing prev with
  | nil => rfl
  | cons v windows ih => exact ih

/-- A sequence that starts by itself repeats nothing of what is before it. -/
theorem Overlapping.of_nil (h : Overlapping k [] windows) (prev : List α) :
    Overlapping k prev windows := by
  cases windows with
  | nil => trivial
  | cons w windows =>
      obtain ⟨hsuffix, hlength, hrest⟩ := h
      refine ⟨?_, hlength, hrest⟩
      rw [List.suffix_nil.mp hsuffix]
      exact List.nil_suffix

/-- The chunks are overlapping windows whose new parts amount to the content, as far as
its elements count. -/
def Covers (counts : α → Bool) (k : Nat) (chunks : List (List α)) (content : List α) : Prop :=
  ∃ windows : List (Window α), windows.map Window.content = chunks ∧
    Overlapping k [] windows ∧ (windows.flatMap Window.fresh).filter counts = content

section Covers
variable {counts : α → Bool} {chunks chunks' : List (List α)} {content content' : List α}

theorem covers_nil : Covers counts k [] [] := ⟨[], rfl, trivial, rfl⟩

theorem covers_singleton (chunk : List α) :
    Covers counts k [chunk] (chunk.filter counts) := by
  refine ⟨[⟨[], chunk⟩], rfl, ⟨List.nil_suffix, Nat.zero_le k, trivial⟩, ?_⟩
  rw [List.flatMap_singleton]

theorem Covers.append (h : Covers counts k chunks content) (h' : Covers counts k chunks' content') :
    Covers counts k (chunks ++ chunks') (content ++ content') := by
  obtain ⟨windows, rfl, hoverlap, rfl⟩ := h
  obtain ⟨windows', rfl, hoverlap', rfl⟩ := h'
  refine ⟨windows ++ windows', List.map_append, ?_, ?_⟩
  · exact overlapping_append.mpr ⟨hoverlap, hoverlap'.of_nil _⟩
  · rw [List.flatMap_append, List.filter_append]

/-- The chunks come in pieces, each of which starts by itself. -/
def CoversPieces (counts : α → Bool) (k : Nat) (pieces : List (List (List α)))
    (content : List α) : Prop :=
  ∃ groups : List (List (Window α)), groups.map (List.map Window.content) = pieces ∧
    (∀ windows ∈ groups, Overlapping k [] windows) ∧
    (groups.flatten.flatMap Window.fresh).filter counts = content

variable {pieces pieces' : List (List (List α))}

theorem coversPieces_nil : CoversPieces counts k [] [] := ⟨[], rfl, by simp, rfl⟩

theorem Covers.piece (h : Covers counts k chunks content) :
    CoversPieces counts k [chunks] content := by
  obtain ⟨windows, hchunks, hoverlap, hcontent⟩ := h
  refine ⟨[windows], by rw [List.map_singleton, hchunks], ?_, ?_⟩
  · simpa using hoverlap
  · rwa [List.flatten_singleton]

theorem CoversPieces.append (h : CoversPieces counts k pieces content)
    (h' : CoversPieces counts k pieces' content') :
    CoversPieces counts k (pieces ++ pieces') (content ++ content') := by
  obtain ⟨groups, rfl, hoverlap, rfl⟩ := h
  obtain ⟨groups', rfl, hoverlap', rfl⟩ := h'
  refine ⟨groups ++ groups', List.map_append, ?_, ?_⟩
  · intro windows hwindows
    obtain hmem | hmem := List.mem_append.mp hwindows
    · exact hoverlap windows hmem
    · exact hoverlap' windows hmem
  · rw [List.flatten_append, List.flatMap_append, List.filter_append]

/-- Sequences that are covered one by one are covered together. -/
theorem coversPieces_flatMap {β : Type} {items : List β} {f : β → List (List (List α))}
    {content : β → List α} (h : ∀ b ∈ items, CoversPieces counts k (f b) (content b)) :
    CoversPieces counts k (items.flatMap f) (items.flatMap content) := by
  induction items with
  | nil => exact coversPieces_nil
  | cons b items ih =>
      rw [List.flatMap_cons, List.flatMap_cons]
      apply (h b List.mem_cons_self).append
      exact ih fun c hc => h c (List.mem_cons_of_mem b hc)

/-- Pieces that start by themselves make up one overlapping sequence. -/
theorem overlapping_flatten {groups : List (List (Window α))}
    (h : ∀ windows ∈ groups, Overlapping k [] windows) : Overlapping k [] groups.flatten := by
  induction groups with
  | nil => trivial
  | cons windows groups ih =>
      rw [List.flatten_cons, overlapping_append]
      refine ⟨h windows List.mem_cons_self, Overlapping.of_nil ?_ _⟩
      exact ih fun w hw => h w (List.mem_cons_of_mem _ hw)

end Covers

end LocalGraphRag.Sequences
