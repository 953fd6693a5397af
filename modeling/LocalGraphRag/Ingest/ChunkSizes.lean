import LocalGraphRag.Ingest.TextChunks

/-!
# The sizes of text chunks

A chunk begins with an end of the one before it that is no longer than the overlap, and
the part after that end is added to it unchecked. So the chunks keep to a limit exactly
when no run of parts within the overlap goes over it with the part that follows.
-/

namespace LocalGraphRag.Ingest

open LocalGraphRag.Python LocalGraphRag.Systems

theorem join_suffix (sep : Text) {kept parts : List Text} (h : kept <:+ parts) :
    join sep kept <:+ join sep parts := by
  induction parts with
  | nil => rw [List.suffix_nil.mp h]
  | cons part parts ih =>
      obtain rfl | hrest := List.suffix_cons_iff.mp h
      · exact List.suffix_rfl
      · exact (ih hrest).trans (join_suffix_cons ..)

section Merge
variable (cfg : ChunkSettings) (separator : Text) (limit : Nat)

/-- A run of parts within the overlap stays within the limit with the part after it, if
that part is not itself longer than a chunk. -/
def RunsFit (parts : List Text) : Prop :=
  ∀ kept part, kept ++ [part] <:+: parts → part.length ≤ cfg.chunkSize →
    (join separator kept).length ≤ cfg.chunkOverlap →
      (join separator (kept ++ [part])).length ≤ limit

/-- The part after these parts fits after every end of them that is within the overlap. -/
def EndsFit (parts : List Text) (part : Text) : Prop :=
  ∀ kept, kept <:+ parts → (join separator kept).length ≤ cfg.chunkOverlap →
    (join separator (kept ++ [part])).length ≤ limit

variable {cfg separator limit} {σ : MergeState} {done : List Text}

theorem runsFit_nil : RunsFit cfg separator limit [] := by
  intro kept part h
  exact absurd (List.infix_nil.mp h) (List.concat_ne_nil part kept)

theorem runsFit_concat (part : Text) : RunsFit cfg separator limit (done ++ [part]) ↔
    RunsFit cfg separator limit done ∧
      (part.length ≤ cfg.chunkSize → EndsFit cfg separator limit done part) := by
  constructor
  · intro h
    refine ⟨fun kept p hrun => h kept p (hrun.trans (List.infix_append' [] done [part])), ?_⟩
    intro hshort kept hkept
    exact h kept part (List.suffix_append_self_iff.mpr hkept).isInfix hshort
  · intro ⟨hdone, hlast⟩ kept p hrun
    obtain hend | hrun := List.infix_concat_iff.mp hrun
    · obtain ⟨first, hfirst⟩ := hend
      rw [← List.append_assoc] at hfirst
      obtain ⟨hkept, hp⟩ := List.append_inj' hfirst rfl
      obtain ⟨rfl, -⟩ := List.cons_eq_cons.mp hp
      intro hshort
      exact hlast hshort kept ⟨first, hkept⟩
    · exact hdone kept p hrun

theorem length_join_concat_le {kept parts : List Text} (h : kept <:+ parts) (part : Text) :
    (join separator (kept ++ [part])).length ≤ (join separator (parts ++ [part])).length :=
  (join_suffix separator (List.suffix_append_self_iff.mpr h)).length_le

/-- What is kept of a chunk is its longest end within the overlap. -/
theorem dropToOverlap_longest (cfg : ChunkSettings) (separator : Text)
    (current : List Text) : ∀ currentLen,
    currentLen = (join separator current).length →
      (dropToOverlap cfg separator current currentLen).1 <:+ current ∧
        ∀ kept, kept <:+ current → (join separator kept).length ≤ cfg.chunkOverlap →
          kept <:+ (dropToOverlap cfg separator current currentLen).1 := by
  induction current with
  | nil =>
      intro currentLen _
      exact ⟨List.suffix_rfl, fun kept h _ => h⟩
  | cons part current ih =>
      intro currentLen hlen
      by_cases hlong : currentLen > cfg.chunkOverlap
      · rw [dropToOverlap, if_pos hlong]
        obtain ⟨hsuffix, hlongest⟩ := ih _ (hlen ▸ length_join_drop separator part current)
        refine ⟨hsuffix.trans (List.suffix_cons part current), ?_⟩
        intro kept hkept hshort
        obtain rfl | hkept := List.suffix_cons_iff.mp hkept
        · omega
        · exact hlongest kept hkept hshort
      · rw [dropToOverlap, if_neg hlong]
        exact ⟨List.suffix_rfl, fun kept h _ => h⟩

/-- The chunks so far keep to the limit exactly when the runs of the parts gone through do,
and the parts in hand hold every end of those within the overlap. -/
structure Sized (cfg : ChunkSettings) (separator : Text) (limit : Nat) (σ : MergeState)
    (done : List Text) : Prop where
  length : σ.currentLen = (join separator σ.current).length
  suffix : σ.current <:+ done
  longest : ∀ kept, kept <:+ done → (join separator kept).length ≤ cfg.chunkOverlap →
    kept <:+ σ.current
  fit : (∀ c ∈ σ.chunks ++ [join separator σ.current], c.length ≤ limit) ↔
    RunsFit cfg separator limit done

theorem sized_nil : Sized cfg separator limit ⟨[], [], 0⟩ [] := by
  refine ⟨rfl, List.suffix_rfl, fun kept h _ => h, ?_⟩
  simp [runsFit_nil]

/-- The part joins the ends that are within the overlap. -/
theorem longest_concat {current : List Text}
    (h : ∀ kept, kept <:+ done → (join separator kept).length ≤ cfg.chunkOverlap →
      kept <:+ current) (part : Text) :
    ∀ kept, kept <:+ done ++ [part] → (join separator kept).length ≤ cfg.chunkOverlap →
      kept <:+ current ++ [part] := by
  intro kept hkept hshort
  obtain rfl | ⟨first, rfl, hfirst⟩ := List.suffix_concat_iff.mp hkept
  · exact List.nil_suffix
  · rw [length_join_concat] at hshort
    have hfirst' := h first hfirst (by omega)
    exact List.suffix_append_self_iff.mpr hfirst'

/-- The part goes to the parts in hand, and they stay within a chunk. -/
theorem Sized.grow (h : Sized cfg separator limit σ done) (hlimit : cfg.chunkSize ≤ limit)
    {part : Text}
    (hroom : (join separator (σ.current ++ [part])).length ≤ cfg.chunkSize) :
    Sized cfg separator limit (addPart separator σ part) (done ++ [part]) := by
  refine ⟨?_, List.suffix_append_self_iff.mpr h.suffix, longest_concat h.longest part, ?_⟩
  · rw [addPart, h.length]
    exact (length_join_concat ..).symm
  · have hcurrent : (join separator σ.current).length ≤ limit := by
      rw [length_join_concat] at hroom
      omega
    have hends : EndsFit cfg separator limit done part := by
      intro kept hkept hshort
      have hle : (join separator (kept ++ [part])).length ≤
          (join separator (σ.current ++ [part])).length :=
        length_join_concat_le (h.longest kept hkept hshort) part
      omega
    have hfit := h.fit
    simp only [List.forall_mem_append, List.forall_mem_singleton, hcurrent, and_true] at hfit
    simp only [addPart, List.forall_mem_append, List.forall_mem_singleton, runsFit_concat, hfit,
      hends, hroom.trans hlimit, implies_true, and_true]

/-- A chunk is closed, and the part goes to what is kept of it. -/
theorem Sized.close (h : Sized cfg separator limit σ done) {part : Text}
    (hpart : part.length ≤ cfg.chunkSize) :
    Sized cfg separator limit
      (addPart separator
        ⟨σ.chunks ++ [join separator σ.current],
          (dropToOverlap cfg separator σ.current σ.currentLen).1,
          (dropToOverlap cfg separator σ.current σ.currentLen).2⟩ part)
      (done ++ [part]) := by
  obtain ⟨-, hlen, hshort⟩ := dropToOverlap_spec cfg separator σ.current _ h.length
  obtain ⟨hsuffix, hlongest⟩ := dropToOverlap_longest cfg separator σ.current _ h.length
  generalize dropToOverlap cfg separator σ.current σ.currentLen = kept at *
  have hdone : kept.1 <:+ done := hsuffix.trans h.suffix
  have hkept : ∀ k, k <:+ done → (join separator k).length ≤ cfg.chunkOverlap →
      k <:+ kept.1 := fun k hk hs => hlongest k (h.longest k hk hs) hs
  refine ⟨?_, List.suffix_append_self_iff.mpr hdone, longest_concat hkept part, ?_⟩
  · rw [addPart, hlen]
    exact (length_join_concat ..).symm
  · have hends : EndsFit cfg separator limit done part ↔
        (join separator (kept.1 ++ [part])).length ≤ limit := by
      constructor
      · intro hfit
        exact hfit kept.1 hdone (hlen ▸ hshort)
      · intro hfit k hk hs
        exact (length_join_concat_le (hkept k hk hs) part).trans hfit
    rw [runsFit_concat, ← h.fit, hends]
    simp only [addPart, List.forall_mem_append, List.forall_mem_singleton, hpart, true_implies]

theorem Sized.step (h : Sized cfg separator limit σ done) (hlimit : cfg.chunkSize ≤ limit)
    {part : Text} (hpart : part.length ≤ cfg.chunkSize) :
    Sized cfg separator limit (addPart separator (closeChunk cfg separator σ part) part)
      (done ++ [part]) := by
  by_cases hfull : σ.current ≠ [] ∧ σ.currentLen + (part.length +
      if σ.current ≠ [] then separator.length else 0) > cfg.chunkSize
  · rw [closeChunk, if_pos hfull]
    exact h.close hpart
  · rw [closeChunk, if_neg hfull]
    apply h.grow hlimit
    rw [length_join_concat]
    by_cases hcurrent : σ.current = []
    · simpa [hcurrent] using hpart
    · have hroom := not_and.mp hfull hcurrent
      rw [if_pos hcurrent, h.length] at hroom
      split_ifs <;> omega

theorem sized_foldl (hlimit : cfg.chunkSize ≤ limit) {splits : List Text}
    (hsplits : ∀ part ∈ splits, part.length ≤ cfg.chunkSize) :
    Sized cfg separator limit (splits.foldl
      (fun σ part => addPart separator (closeChunk cfg separator σ part) part) ⟨[], [], 0⟩)
      splits := by
  apply foldl_invariant _ (Sized cfg separator limit) sized_nil
  intro done part hdone σ h
  have hpart := hsplits part (hdone.subset (List.mem_concat_self ..))
  exact h.step hlimit hpart

/-- The merged chunks keep to the limit exactly when the runs of the parts do. -/
theorem mergeSplits_fit (hlimit : cfg.chunkSize ≤ limit) {splits : List Text}
    (hsplits : ∀ part ∈ splits, part.length ≤ cfg.chunkSize) :
    (∀ c ∈ mergeSplits cfg separator splits, c.length ≤ limit) ↔
      RunsFit cfg separator limit splits := by
  rw [← (sized_foldl hlimit hsplits).fit, mergeSplits]
  generalize splits.foldl _ _ = σ
  by_cases hcurrent : σ.current = []
  · rw [if_neg (not_not.mpr hcurrent), hcurrent, List.forall_mem_append,
      List.forall_mem_singleton]
    simp
  · rw [if_pos hcurrent]

end Merge

section Recursion
variable (cfg : ChunkSettings) (limit : Nat)

/-- At the separator the text is split at, the runs of its parts fit, and so do those of
every part that is longer than a chunk at the separators after it. -/
def OverlapsFit : List Text → Text → Prop
  | [], s => s.length ≤ limit
  | separator :: remaining, s =>
      if separator = [] ∨ separator <:+: s ∨ remaining = [] then
        RunsFit cfg separator limit (partsOf separator s) ∧
          ∀ part ∈ partsOf separator s, cfg.chunkSize < part.length → OverlapsFit remaining part
      else OverlapsFit remaining s

variable {cfg limit} {separator : Text} {recurse : Text → List Text} {fit : Text → Prop}
  {σ : List Text × List Text} {done : List Text}

/-- The chunks so far and the short parts in hand fit exactly when the parts gone through
do. -/
structure PartsSized (cfg : ChunkSettings) (limit : Nat) (separator : Text) (fit : Text → Prop)
    (σ : List Text × List Text) (done : List Text) : Prop where
  short : ∀ part ∈ σ.2, part.length ≤ cfg.chunkSize
  suffix : σ.2 <:+ done
  longest : ∀ kept, kept <:+ done → (join separator kept).length ≤ cfg.chunkOverlap →
    kept <:+ σ.2
  fit : ((∀ c ∈ σ.1, c.length ≤ limit) ∧ RunsFit cfg separator limit σ.2) ↔
    RunsFit cfg separator limit done ∧ ∀ part ∈ done, cfg.chunkSize < part.length → fit part

theorem partsSized_nil : PartsSized cfg limit separator fit ([], []) [] :=
  ⟨by simp, List.suffix_rfl, fun kept h _ => h, by simp [runsFit_nil]⟩

theorem flush_fit (hlimit : cfg.chunkSize ≤ limit) {good : List Text}
    (hgood : ∀ part ∈ good, part.length ≤ cfg.chunkSize) :
    (∀ c ∈ flush cfg separator good, c.length ≤ limit) ↔ RunsFit cfg separator limit good := by
  rw [flush]
  split_ifs with hne
  · exact mergeSplits_fit hlimit hgood
  · rw [not_not.mp hne]
    simp [runsFit_nil]

/-- A part is a part of the joined text. -/
theorem length_le_join {parts : List Text} {part : Text} (h : part ∈ parts) :
    part.length ≤ (join separator parts).length := by
  induction parts with
  | nil => exact absurd h List.not_mem_nil
  | cons p parts ih =>
      rw [length_join_cons]
      obtain rfl | h := List.mem_cons.mp h
      · omega
      · have hle := ih h
        omega

theorem PartsSized.short_part (h : PartsSized cfg limit separator fit σ done) {part : Text}
    (hpart : part.length ≤ cfg.chunkSize) :
    PartsSized cfg limit separator fit (σ.1, σ.2 ++ [part]) (done ++ [part]) := by
  refine ⟨?_, List.suffix_append_self_iff.mpr h.suffix, longest_concat h.longest part, ?_⟩
  · exact List.forall_mem_append.mpr ⟨h.short, List.forall_mem_singleton.mpr hpart⟩
  · have hends : EndsFit cfg separator limit σ.2 part ↔ EndsFit cfg separator limit done part := by
      constructor
      · intro hfit kept hkept hshort
        exact hfit kept (h.longest kept hkept hshort) hshort
      · intro hfit kept hkept hshort
        exact hfit kept (hkept.trans h.suffix) hshort
    rw [runsFit_concat, runsFit_concat, hends, ← and_assoc, h.fit, List.forall_mem_append,
      List.forall_mem_singleton]
    have hnot : ¬cfg.chunkSize < part.length := by omega
    simp only [hnot, false_implies, and_true]
    tauto

theorem PartsSized.long_part (hlimit : cfg.chunkSize ≤ limit)
    (hrecurse : ∀ part, (∀ c ∈ recurse part, c.length ≤ limit) ↔ fit part)
    (h : PartsSized cfg limit separator fit σ done) {part : Text}
    (hpart : cfg.chunkSize < part.length) :
    PartsSized cfg limit separator fit (σ.1 ++ flush cfg separator σ.2 ++ recurse part, [])
      (done ++ [part]) := by
  refine ⟨by simp, List.nil_suffix, ?_, ?_⟩
  · intro kept hkept hshort
    obtain rfl | ⟨first, rfl, -⟩ := List.suffix_concat_iff.mp hkept
    · exact List.suffix_rfl
    · -- The part is longer than a chunk, and so than an overlap.
      have hin : part.length ≤ (join separator (first ++ [part])).length :=
        length_le_join (List.mem_concat_self ..)
      have hoverlap := cfg.overlap_lt
      omega
  · have hnot : ¬part.length ≤ cfg.chunkSize := by omega
    have hfit := h.fit
    rw [runsFit_concat, List.forall_mem_append, List.forall_mem_append, flush_fit hlimit h.short,
      hrecurse, hfit, List.forall_mem_append, List.forall_mem_singleton]
    simp only [hnot, false_implies, and_true, hpart, true_implies, runsFit_nil]
    tauto

theorem partsSized_foldl (hlimit : cfg.chunkSize ≤ limit)
    (hrecurse : ∀ part, (∀ c ∈ recurse part, c.length ≤ limit) ↔ fit part)
    (parts : List Text) :
    PartsSized cfg limit separator fit (parts.foldl (splitPart cfg separator recurse) ([], []))
      parts := by
  apply foldl_invariant _ (PartsSized cfg limit separator fit) partsSized_nil
  intro done part _ σ h
  unfold splitPart
  split_ifs with hpart
  · exact h.long_part hlimit hrecurse hpart
  · exact h.short_part (by omega)

/-- The chunks of a text keep to the limit exactly when its overlaps fit. -/
theorem recursiveSplit_fit (hlimit : cfg.chunkSize ≤ limit) (separators : List Text)
    (hne : separators ≠ []) :
    ∀ s, (∀ c ∈ recursiveSplit cfg separators s, c.length ≤ limit) ↔
      OverlapsFit cfg limit separators s := by
  induction separators with
  | nil => exact absurd rfl hne
  | cons separator remaining ih =>
      intro s
      by_cases hhere : separator = [] ∨ separator <:+: s ∨ remaining = []
      · rw [recursiveSplit, OverlapsFit, if_pos hhere, if_pos hhere]
        have hrecurse : ∀ part, (∀ c ∈ if remaining ≠ [] then recursiveSplit cfg remaining part
            else [part], c.length ≤ limit) ↔ OverlapsFit cfg limit remaining part := by
          intro part
          by_cases hremaining : remaining = []
          · rw [if_neg (not_not.mpr hremaining), hremaining]
            exact List.forall_mem_singleton
          · rw [if_pos hremaining]
            exact ih hremaining part
        have hall : PartsSized cfg limit separator _ _ (partsOf separator s) :=
          partsSized_foldl hlimit hrecurse (partsOf separator s)
        rw [List.forall_mem_append, flush_fit hlimit hall.short]
        exact hall.fit
      · rw [recursiveSplit, OverlapsFit, if_neg hhere, if_neg hhere]
        exact ih (fun h => hhere (Or.inr (Or.inr h))) s

/-- The chunks of a text keep to a limit that is no shorter than a chunk exactly when the
text is blank or its overlaps fit. -/
theorem chunkText_fit (hlimit : cfg.chunkSize ≤ limit) (s : Text) :
    (∀ c ∈ chunkText cfg s, c.length ≤ limit) ↔
      strip s = [] ∨ OverlapsFit cfg limit separators s := by
  rw [chunkText]
  by_cases hblank : strip s = []
  · simp [hblank]
  · rw [if_neg hblank, recursiveSplit_fit hlimit separators (List.cons_ne_nil _ _)]
    simp [hblank]

/-- Every chunk has at most `CHUNK_SIZE` characters exactly when the text is blank or every
overlap leaves room for the part after it. -/
theorem chunkText_within_size_iff (cfg : ChunkSettings) (s : Text) :
    (∀ c ∈ chunkText cfg s, c.length ≤ cfg.chunkSize) ↔
      strip s = [] ∨ OverlapsFit cfg cfg.chunkSize separators s :=
  chunkText_fit (Nat.le_refl _) s

/-- With chunks of six characters that overlap by four, the first word of this text is kept
for the second. -/
theorem not_chunkText_within_size : ¬∀ (cfg : ChunkSettings) (s : Text),
    ∀ c ∈ chunkText cfg s, c.length ≤ cfg.chunkSize := by
  intro h
  let cfg : ChunkSettings := ⟨6, 4, 6, by decide, by decide⟩
  have hlong : text "aaaa bbbbb" ∈ chunkText cfg (text "aaaa bbbbb") := by decide
  exact absurd (h cfg _ _ hlong) (by decide)

end Recursion

end LocalGraphRag.Ingest
