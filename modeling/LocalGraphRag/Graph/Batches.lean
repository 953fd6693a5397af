import LocalGraphRag.Graph.Extractor
import LocalGraphRag.Python.Split
import LocalGraphRag.Sequences.Greedy
import LocalGraphRag.Systems.History
import Mathlib.Algebra.GroupWithZero.Nat

/-!
# Extraction batches and the token budget

The batches are the greedy groups of the chunks under the sum of their token estimates.
That sum rounds every chunk down and leaves the separators out, and the text of a batch
holds both. The batches stay within the budget exactly if they are the groups that the size of
the joined text makes, that is, if what is left out never decides where a group ends.
-/

namespace LocalGraphRag.Graph

open Python Sequences Systems

/-- The tokens a batch is counted at: those of its chunks, each estimated for itself. -/
def countedTokens (parts : List Text) : Nat := (parts.map estimateTokens).sum

/-- A chunk joins a batch while the counted tokens stay within the budget. -/
def FitsBudget (batchTokens : Nat) (parts : List Text) (chunk : Text) : Prop :=
  countedTokens parts + estimateTokens chunk ≤ batchTokens

@[simp] theorem countedTokens_nil : countedTokens [] = 0 := rfl

@[simp] theorem countedTokens_singleton (chunk : Text) :
    countedTokens [chunk] = estimateTokens chunk := List.sum_singleton

theorem countedTokens_concat (parts : List Text) (chunk : Text) :
    countedTokens (parts ++ [chunk]) = countedTokens parts + estimateTokens chunk := by
  simp [countedTokens]

section Loop
variable {batchTokens : Nat}

/-- The closed batches and the open one are the groups of the chunks gone through. -/
structure Batched (batchTokens : Nat) (acc : List Text × List Text × Nat) (done : List Text) :
    Prop where
  tokens : acc.2.2 = countedTokens acc.2.1
  groups : ∃ closed : List (List Text), acc.1 = closed.map (join batchSeparator) ∧
    (acc.2.1 = [] → closed = []) ∧
    Greedy (FitsBudget batchTokens) done (closed ++ openGroup acc.2.1)

theorem batched_nil : Batched batchTokens ([], [], 0) [] :=
  ⟨rfl, [], rfl, fun _ => rfl, greedy_nil⟩

theorem Batched.addToBatch {acc : List Text × List Text × Nat} {done : List Text}
    (h : Batched batchTokens acc done) (chunk : Text) :
    Batched batchTokens (addToBatch batchTokens acc chunk) (done ++ [chunk]) := by
  obtain ⟨batches, parts, tokens⟩ := acc
  obtain ⟨htokens, closed, hclosed, hempty, hgroups⟩ := h
  simp only at htokens hclosed hempty hgroups
  by_cases hfull : parts ≠ [] ∧ batchTokens < tokens + estimateTokens chunk
  · rw [Graph.addToBatch, if_pos hfull]
    rw [openGroup_of_ne_nil hfull.1] at hgroups
    refine ⟨(countedTokens_singleton chunk).symm, closed ++ [parts], ?_, ?_, ?_⟩
    · simp only [hclosed, List.map_append, List.map_cons, List.map_nil]
    · intro h
      exact absurd h (List.cons_ne_nil chunk [])
    · apply hgroups.start
      intro g hg
      rw [List.getLast?_concat, Option.mem_some_iff] at hg
      subst hg
      simp only [FitsBudget]
      omega
  · rw [Graph.addToBatch, if_neg hfull]
    refine ⟨?_, closed, hclosed, fun h => absurd h (List.concat_ne_nil chunk parts), ?_⟩
    · simp only [countedTokens_concat, htokens]
    · apply hgroups.next
      · intro hparts
        have hroom := not_and.mp hfull hparts
        simp only [FitsBudget]
        omega
      · intro hparts
        simp [hempty hparts]

theorem batched_foldl (chunks : List Text) :
    Batched batchTokens (chunks.foldl (Graph.addToBatch batchTokens) ([], [], 0)) chunks := by
  apply foldl_invariant _ (Batched batchTokens) batched_nil
  exact fun _ chunk _ _ h => h.addToBatch chunk

/-- The batches are the greedy groups of the chunks, joined. -/
theorem exists_greedy_buildBatches (batchTokens : Nat) (chunks : List Text) :
    ∃ groups, Greedy (FitsBudget batchTokens) chunks groups ∧
      buildBatches batchTokens chunks = groups.map (join batchSeparator) := by
  have hall : Batched batchTokens _ chunks := batched_foldl chunks
  simp only [buildBatches]
  generalize chunks.foldl (addToBatch batchTokens) ([], [], 0) = acc at hall ⊢
  obtain ⟨closed, hclosed, -, hgroups⟩ := hall.groups
  refine ⟨_, hgroups, ?_⟩
  by_cases hparts : acc.2.1 = []
  · rw [if_neg (not_not.mpr hparts), hparts, openGroup_nil, List.append_nil, hclosed]
  · rw [if_pos hparts, openGroup_of_ne_nil hparts, List.map_append, List.map_singleton, hclosed]

end Loop

section Budget
variable (batchTokens : Nat) (chunks : List Text)

/-- The batches hold every chunk once and in order, and each batch of more than one chunk
is estimated within the budget. -/
def BatchesRespectBudget : Prop :=
  ∃ groups : List (List Text), groups.flatten = chunks ∧ (∀ g ∈ groups, g ≠ []) ∧
    buildBatches batchTokens chunks = groups.map (join batchSeparator) ∧
    ∀ g ∈ groups, 2 ≤ g.length → estimateTokens (join batchSeparator g) ≤ batchTokens

/-- A chunk joins a group while the text of the group stays within the budget. -/
def FitsText (parts : List Text) (chunk : Text) : Prop :=
  estimateTokens (join batchSeparator (parts ++ [chunk])) ≤ batchTokens

/-- Where the chunks are grouped by the size of the joined text, whatever a group has no room
for takes the estimates of the single chunks over the budget, too. -/
def EstimatesDecide : Prop :=
  ∃ groups, Greedy (FitsText batchTokens) chunks groups ∧
    groups.IsChain fun g h =>
      ∀ chunk ∈ h.head?, batchTokens < countedTokens g + estimateTokens chunk

variable {batchTokens chunks} {parts : List Text}

/-- A batch is counted at no more than its text. -/
theorem countedTokens_le (parts : List Text) :
    countedTokens parts ≤ estimateTokens (join batchSeparator parts) := by
  have hsum : 4 * countedTokens parts ≤ (parts.map List.length).sum := by
    induction parts with
    | nil => exact Nat.le_refl 0
    | cons chunk parts ih =>
        have hdiv := Nat.div_mul_le_self chunk.length 4
        simp only [countedTokens, estimateTokens, List.map_cons, List.sum_cons] at ih ⊢
        omega
  rw [estimateTokens, length_join]
  omega

/-- A batch that goes on is estimated at no less. -/
theorem estimate_join_le {before : List Text} (h : before <+: parts) :
    estimateTokens (join batchSeparator before) ≤ estimateTokens (join batchSeparator parts) := by
  obtain ⟨more, rfl⟩ := h
  apply Nat.div_le_div_right
  rw [length_join, length_join, List.map_append, List.sum_append, List.length_append]
  have hless : batchSeparator.length * (before.length - 1) ≤
      batchSeparator.length * (before.length + more.length - 1) :=
    Nat.mul_le_mul_left _ (by omega)
  omega

/-- What fits by its text fits by its estimates. -/
theorem fitsBudget_of_fitsText {chunk : Text} (h : FitsText batchTokens parts chunk) :
    FitsBudget batchTokens parts chunk := by
  rw [FitsBudget, ← countedTokens_concat]
  exact (countedTokens_le _).trans h

/-- A group is packed by its text as soon as its text is within the budget, and only then if
it has more than one chunk. -/
theorem packed_fitsText_iff :
    Packed (FitsText batchTokens) parts ↔
      (2 ≤ parts.length → estimateTokens (join batchSeparator parts) ≤ batchTokens) := by
  constructor
  · intro h hmany
    obtain rfl | ⟨init, last, rfl⟩ := List.eq_nil_or_concat' parts
    · simp at hmany
    · apply h init last _ List.prefix_rfl
      apply List.ne_nil_of_length_pos
      rw [List.length_append, List.length_singleton] at hmany
      omega
  · intro h before chunk hbefore hpart
    apply (estimate_join_le hpart).trans (h _)
    have hlen := hpart.length_le
    have hpos := List.length_pos_iff.mpr hbefore
    rw [List.length_append, List.length_singleton] at hlen
    omega

/-- A batch that goes on is longer. -/
theorem join_batch_ne (parts more : List Text) (hparts : parts ≠ []) (hmore : more ≠ []) :
    join batchSeparator parts ≠ join batchSeparator (parts ++ more) := by
  intro h
  have hlen := congrArg List.length h
  have hpos := List.length_pos_iff.mpr hparts
  have hmorepos := List.length_pos_iff.mpr hmore
  have hsep : batchSeparator.length = 7 := by decide
  rw [length_join, length_join, List.map_append, List.sum_append, List.length_append, hsep]
    at hlen
  omega

/-- The batches respect the budget exactly when what the estimates of the single chunks leave
out never decides where a group ends. -/
theorem batchesRespectBudget_iff (batchTokens : Nat) (chunks : List Text) :
    BatchesRespectBudget batchTokens chunks ↔ EstimatesDecide batchTokens chunks := by
  obtain ⟨groups, hgroups, hbatches⟩ := exists_greedy_buildBatches batchTokens chunks
  constructor
  · intro h
    obtain ⟨parts, hflat, hne, hparts, hbudget⟩ := h
    obtain rfl : groups = parts :=
      groups_eq_of_map_eq join_batch_ne hgroups.ne_nil hne (hgroups.flatten.trans hflat.symm)
        (hbatches.symm.trans hparts)
    have hcut : groups.IsChain fun g h => ∀ chunk ∈ h.head?,
        batchTokens < countedTokens g + estimateTokens chunk := by
      apply hgroups.cut.imp
      intro g h hfull chunk hchunk
      exact Nat.lt_of_not_ge (hfull chunk hchunk)
    refine ⟨groups, ⟨hflat, hne, ?_, ?_⟩, hcut⟩
    · intro g hg
      exact packed_fitsText_iff.mpr (hbudget g hg)
    · apply hgroups.cut.imp
      intro g h hfull chunk hchunk hfits
      exact hfull chunk hchunk (fitsBudget_of_fitsText hfits)
  · intro h
    obtain ⟨parts, hparts, hcut⟩ := h
    -- these are the groups that the code makes
    have hcode : Greedy (FitsBudget batchTokens) chunks parts := by
      refine ⟨hparts.flatten, hparts.ne_nil, ?_, ?_⟩
      · intro g hg before chunk hbefore hpart
        exact fitsBudget_of_fitsText (hparts.packed g hg before chunk hbefore hpart)
      · apply hcut.imp
        intro g h hover chunk hchunk
        exact Nat.not_le_of_lt (hover chunk hchunk)
    obtain rfl := hcode.unique hgroups
    refine ⟨parts, hparts.flatten, hparts.ne_nil, hbatches, ?_⟩
    intro g hg
    exact packed_fitsText_iff.mp (hparts.packed g hg)

/-- Two headings of three characters each count as nothing, and their batch as three
tokens. -/
theorem not_batchesRespectBudget_headings :
    ¬BatchesRespectBudget 1 [text "# a", text "# b"] := by
  intro h
  obtain ⟨groups, hflat, -, hbatches, hbudget⟩ := h
  have hone : buildBatches 1 [text "# a", text "# b"] =
      [join batchSeparator [text "# a", text "# b"]] := by decide
  rw [hone] at hbatches
  obtain ⟨g, rfl, -⟩ := List.map_eq_singleton_iff.mp hbatches.symm
  rw [List.flatten_singleton] at hflat
  subst hflat
  have hover := hbudget _ List.mem_cons_self (by simp)
  exact absurd hover (by decide)

end Budget

end LocalGraphRag.Graph
