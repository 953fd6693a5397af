import LocalGraphRag.Python.Split
import LocalGraphRag.Sequences.Windows
import LocalGraphRag.Systems.History

/-!
# Chunks of plain text

A text is split at the first separator that occurs in it; parts that are too long are
split again at the separators after it, and the others are joined up to the size of a
chunk. A chunk may begin with the last parts of the one before it.

## Implementation notes

The search for the separator and the recursion on the separators after it are one
recursion on their list. `currentLen` is the length of the joined parts, so that the
subtractions of the source are those of natural numbers.
-/

namespace LocalGraphRag.Ingest

open LocalGraphRag.Python LocalGraphRag.Sequences LocalGraphRag.Systems

/-- The settings of the chunkers, as `settings` accepts them. -/
structure ChunkSettings where
  chunkSize : Nat
  chunkOverlap : Nat
  maxChunkChars : Nat
  overlap_lt : chunkOverlap < chunkSize
  size_le : chunkSize ≤ maxChunkChars

/-- `_tag_none`. -/
def tagNone (chunks : List Text) : List (Text × Option Text) := chunks.map fun c => (c, none)

/-- The chunks repeat at most the overlap and amount to the text, as far as its
whitespace does not count. -/
def CoversText (cfg : ChunkSettings) (chunks : List Text) (content : Text) : Prop :=
  Covers (fun c => !isSpace c) cfg.chunkOverlap chunks content

section Merge
variable (cfg : ChunkSettings) (separator : Text)

/-- The variables of the loop in `_merge_splits`. -/
structure MergeState where
  chunks : List Text
  current : List Text
  currentLen : Nat

/-- The inner loop: parts are dropped from the front until the rest is an overlap. -/
def dropToOverlap : List Text → Nat → List Text × Nat
  | [], currentLen => ([], currentLen)
  | part :: current, currentLen =>
      if currentLen > cfg.chunkOverlap then
        dropToOverlap current
          (currentLen - (part.length + if current ≠ [] then separator.length else 0))
      else (part :: current, currentLen)

/-- A chunk is closed if the next part does not fit. -/
def closeChunk (σ : MergeState) (part : Text) : MergeState :=
  let addedLen := part.length + if σ.current ≠ [] then separator.length else 0
  if σ.current ≠ [] ∧ σ.currentLen + addedLen > cfg.chunkSize then
    let kept := dropToOverlap cfg separator σ.current σ.currentLen
    { chunks := σ.chunks ++ [join separator σ.current]
      current := kept.1
      currentLen := kept.2 }
  else σ

def addPart (σ : MergeState) (part : Text) : MergeState :=
  { σ with
    current := σ.current ++ [part]
    currentLen := σ.currentLen +
      (part.length + if 1 < (σ.current ++ [part]).length then separator.length else 0) }

/-- `_merge_splits`. -/
def mergeSplits (splits : List Text) : List Text :=
  let σ := splits.foldl (fun σ part => addPart separator (closeChunk cfg separator σ part) part)
    ⟨[], [], 0⟩
  if σ.current ≠ [] then σ.chunks ++ [join separator σ.current] else σ.chunks

end Merge

section Recursion
variable (cfg : ChunkSettings)

/-- `list(text)` or `text.split(separator)` without its empty parts. -/
def partsOf (separator s : Text) : List Text :=
  if separator ≠ [] then (split separator s).filter fun part => part ≠ [] else s.map fun c => [c]

/-- The short parts in hand are merged, if there are any. -/
def flush (separator : Text) (good : List Text) : List Text :=
  if good ≠ [] then mergeSplits cfg separator good else []

/-- The loop over the parts: the short ones are merged, up to the next long one. -/
def splitPart (separator : Text) (recurse : Text → List Text) (σ : List Text × List Text)
    (part : Text) : List Text × List Text :=
  if part.length > cfg.chunkSize then
    (σ.1 ++ flush cfg separator σ.2 ++ recurse part, [])
  else (σ.1, σ.2 ++ [part])

/-- `_recursive_split`, which is never called without separators. -/
def recursiveSplit : List Text → Text → List Text
  | [], _ => []
  | separator :: remaining, s =>
      if separator = [] ∨ separator <:+: s ∨ remaining = [] then
        let σ := (partsOf separator s).foldl
          (splitPart cfg separator fun part =>
            if remaining ≠ [] then recursiveSplit remaining part else [part]) ([], [])
        σ.1 ++ flush cfg separator σ.2
      else recursiveSplit remaining s

/-- `_SEPARATORS`. -/
def separators : List Text := [text "\n\n", text "\n", text " ", []]

def chunkText (s : Text) : List Text :=
  if strip s = [] then [] else recursiveSplit cfg separators s

end Recursion

section Merged
variable {cfg : ChunkSettings} {separator : Text} {σ : MergeState} {done : List Text}

/-- What is left to join when the first part is dropped. -/
theorem length_join_drop (separator part : Text) (current : List Text) :
    (join separator (part :: current)).length - (part.length +
      if current ≠ [] then separator.length else 0) = (join separator current).length := by
  rw [length_join_cons]
  omega

/-- What is kept is an end of the chunk that was closed, no longer than the overlap. -/
theorem dropToOverlap_spec (cfg : ChunkSettings) (separator : Text) (current : List Text) :
    ∀ currentLen, currentLen = (join separator current).length →
      let kept := dropToOverlap cfg separator current currentLen
      join separator kept.1 <:+ join separator current ∧
        kept.2 = (join separator kept.1).length ∧ kept.2 ≤ cfg.chunkOverlap := by
  induction current with
  | nil =>
      intro currentLen hlen
      subst hlen
      exact ⟨List.suffix_rfl, rfl, Nat.zero_le _⟩
  | cons part current ih =>
      intro currentLen hlen
      by_cases hlong : currentLen > cfg.chunkOverlap
      · rw [dropToOverlap, if_pos hlong]
        obtain ⟨hsuffix, hkept⟩ := ih _ (hlen ▸ length_join_drop separator part current)
        exact ⟨hsuffix.trans (join_suffix_cons ..), hkept⟩
      · rw [dropToOverlap, if_neg hlong]
        exact ⟨List.suffix_rfl, hlen, by omega⟩

/-- The closed chunks cover what came before the parts in hand, which begin with an end of
the last chunk. -/
structure Merged (cfg : ChunkSettings) (separator : Text) (σ : MergeState) (done : List Text) :
    Prop where
  length : σ.currentLen = (join separator σ.current).length
  windows : ∃ (windows : List (Window CodePoint)) (kept fresh : List Text),
    windows.map Window.content = σ.chunks ∧ Overlapping cfg.chunkOverlap [] windows ∧
      σ.current = kept ++ fresh ∧ join separator kept <:+ lastContent [] windows ∧
      (join separator kept).length ≤ cfg.chunkOverlap ∧
      nonSpace (windows.flatMap Window.fresh) ++ (fresh.map nonSpace).flatten =
        (done.map nonSpace).flatten

/-- The parts in hand make up one more window. -/
theorem Merged.window (hsep : nonSpace separator = []) (h : Merged cfg separator σ done) :
    ∃ windows : List (Window CodePoint),
      windows.map Window.content = σ.chunks ++ [join separator σ.current] ∧
      Overlapping cfg.chunkOverlap [] windows ∧
      lastContent [] windows = join separator σ.current ∧
      nonSpace (windows.flatMap Window.fresh) = (done.map nonSpace).flatten := by
  obtain ⟨windows, kept, fresh, hchunks, hoverlap, hcurrent, hsuffix, hlength, hcount⟩ :=
    h.windows
  obtain ⟨rest, hrest, hfresh⟩ := exists_join_append hsep kept fresh
  refine ⟨windows ++ [⟨join separator kept, rest⟩], ?_, ?_, ?_, ?_⟩
  · rw [List.map_append, hchunks, hcurrent, hrest]
    rfl
  · exact overlapping_concat.mpr ⟨hoverlap, hsuffix, hlength⟩
  · rw [lastContent_concat, hcurrent, hrest]
    rfl
  · rw [List.flatMap_append, List.flatMap_singleton, nonSpace_append, hfresh, hcount]

theorem Merged.closeChunk (hsep : nonSpace separator = []) (h : Merged cfg separator σ done)
    (part : Text) : Merged cfg separator (closeChunk cfg separator σ part) done := by
  by_cases hfull : σ.current ≠ [] ∧ σ.currentLen + (part.length +
      if σ.current ≠ [] then separator.length else 0) > cfg.chunkSize
  · rw [Ingest.closeChunk, if_pos hfull]
    obtain ⟨windows, hchunks, hoverlap, hlast, hcount⟩ := h.window hsep
    obtain ⟨hsuffix, hlen, hshort⟩ := dropToOverlap_spec cfg separator σ.current _ h.length
    refine ⟨hlen, windows, _, [], hchunks, hoverlap, (List.append_nil _).symm, ?_, ?_, ?_⟩
    · rw [hlast]
      exact hsuffix
    · exact hlen ▸ hshort
    · simpa using hcount
  · rw [Ingest.closeChunk, if_neg hfull]
    exact h

theorem Merged.addPart (h : Merged cfg separator σ done) (part : Text) :
    Merged cfg separator (addPart separator σ part) (done ++ [part]) := by
  obtain ⟨windows, kept, fresh, hchunks, hoverlap, hcurrent, hsuffix, hlength, hcount⟩ :=
    h.windows
  constructor
  · rw [Ingest.addPart, h.length]
    exact (length_join_concat ..).symm
  · refine ⟨windows, kept, fresh ++ [part], hchunks, hoverlap, ?_, hsuffix, hlength, ?_⟩
    · rw [Ingest.addPart, hcurrent, List.append_assoc]
    · rw [nonSpace_concat, nonSpace_concat, ← List.append_assoc, hcount]

theorem merged_foldl (hsep : nonSpace separator = []) (splits : List Text) :
    Merged cfg separator (splits.foldl
      (fun σ part => addPart separator (closeChunk cfg separator σ part) part) ⟨[], [], 0⟩)
      splits := by
  apply foldl_invariant _ (Merged cfg separator)
  · exact ⟨rfl, [], [], [], rfl, trivial, rfl, List.suffix_rfl, Nat.zero_le _, rfl⟩
  · exact fun _ part _ _ h => (h.closeChunk hsep part).addPart part

/-- The merged chunks cover the parts. -/
theorem covers_mergeSplits (hsep : nonSpace separator = []) (splits : List Text) :
    CoversText cfg (mergeSplits cfg separator splits) (splits.map nonSpace).flatten := by
  have hmerged : Merged cfg separator _ splits := merged_foldl hsep splits
  unfold mergeSplits
  dsimp only
  split_ifs with hcurrent
  · obtain ⟨windows, hchunks, hoverlap, -, hcount⟩ := hmerged.window hsep
    exact ⟨windows, hchunks, hoverlap, hcount⟩
  · obtain ⟨windows, kept, fresh, hchunks, hoverlap, hparts, -, -, hcount⟩ := hmerged.windows
    rw [not_not.mp hcurrent] at hparts
    obtain ⟨-, rfl⟩ := List.append_eq_nil_iff.mp hparts.symm
    refine ⟨windows, hchunks, hoverlap, ?_⟩
    rwa [List.map_nil, List.flatten_nil, List.append_nil] at hcount

end Merged

section Recursion
variable (cfg : ChunkSettings)

/-- A separator of whitespace takes nothing but whitespace away. -/
theorem nonSpace_partsOf {separator : Text} (hsep : nonSpace separator = []) (s : Text) :
    ((partsOf separator s).map nonSpace).flatten = nonSpace s := by
  unfold partsOf
  split_ifs with hnil
  · rw [flatten_map_nonSpace_filter (by simp), ← nonSpace_join hsep, join_split hnil]
  · rw [← nonSpace_flatten, ← List.flatMap_def, List.flatMap_singleton']

theorem covers_flush {separator : Text} (hsep : nonSpace separator = []) (good : List Text) :
    CoversText cfg (flush cfg separator good) (good.map nonSpace).flatten := by
  unfold flush
  split_ifs with hgood
  · exact covers_mergeSplits hsep good
  · rw [not_not.mp hgood]
    exact covers_nil

/-- The chunks so far and the short parts in hand cover the parts gone through. -/
def PartsCovered (σ : List Text × List Text) (done : List Text) : Prop :=
  ∃ closed, CoversText cfg σ.1 closed ∧
    closed ++ (σ.2.map nonSpace).flatten = (done.map nonSpace).flatten

theorem PartsCovered.flush {cfg : ChunkSettings} {separator : Text}
    {σ : List Text × List Text} {done : List Text} (hsep : nonSpace separator = [])
    (h : PartsCovered cfg σ done) :
    CoversText cfg (σ.1 ++ flush cfg separator σ.2) (done.map nonSpace).flatten := by
  obtain ⟨closed, hclosed, hdone⟩ := h
  rw [← hdone]
  exact hclosed.append (covers_flush cfg hsep σ.2)

theorem PartsCovered.splitPart {cfg : ChunkSettings} {separator : Text}
    {recurse : Text → List Text} {σ : List Text × List Text} {done : List Text}
    (hsep : nonSpace separator = [])
    (hrecurse : ∀ part, CoversText cfg (recurse part) (nonSpace part))
    (h : PartsCovered cfg σ done) (part : Text) :
    PartsCovered cfg (splitPart cfg separator recurse σ part) (done ++ [part]) := by
  unfold Ingest.splitPart
  split_ifs with hlong
  · refine ⟨_, (h.flush hsep).append (hrecurse part), ?_⟩
    rw [nonSpace_concat]
    exact List.append_nil _
  · obtain ⟨closed, hclosed, hdone⟩ := h
    refine ⟨closed, hclosed, ?_⟩
    rw [nonSpace_concat, nonSpace_concat, ← hdone, List.append_assoc]

theorem partsCovered_foldl {cfg : ChunkSettings} {separator : Text}
    {recurse : Text → List Text} (hsep : nonSpace separator = [])
    (hrecurse : ∀ part, CoversText cfg (recurse part) (nonSpace part)) (parts : List Text) :
    PartsCovered cfg (parts.foldl (splitPart cfg separator recurse) ([], [])) parts := by
  apply foldl_invariant _ (PartsCovered cfg)
  · exact ⟨[], covers_nil, rfl⟩
  · exact fun _ part _ _ h => h.splitPart hsep hrecurse part

/-- Splitting at whitespace covers the text. -/
theorem covers_recursiveSplit (separators : List Text) (hne : separators ≠ [])
    (hsep : ∀ separator ∈ separators, nonSpace separator = []) :
    ∀ s, CoversText cfg (recursiveSplit cfg separators s) (nonSpace s) := by
  induction separators with
  | nil => exact absurd rfl hne
  | cons separator remaining ih =>
      intro s
      have hfirst := hsep separator List.mem_cons_self
      have hrest : remaining ≠ [] →
          ∀ part, CoversText cfg (recursiveSplit cfg remaining part) (nonSpace part) := by
        intro hremaining
        exact ih hremaining fun sep h => hsep sep (List.mem_cons_of_mem _ h)
      by_cases hhere : separator = [] ∨ separator <:+: s ∨ remaining = []
      · rw [recursiveSplit, if_pos hhere]
        have hrecurse : ∀ part, CoversText cfg
            (if remaining ≠ [] then recursiveSplit cfg remaining part else [part])
            (nonSpace part) := by
          intro part
          split_ifs with hremaining
          · exact hrest hremaining part
          · exact covers_singleton part
        have hall := (partsCovered_foldl hfirst hrecurse (partsOf separator s)).flush hfirst
        rwa [nonSpace_partsOf hfirst] at hall
      · rw [recursiveSplit, if_neg hhere]
        exact hrest (fun h => hhere (Or.inr (Or.inr h))) s

theorem nonSpace_separators : ∀ separator ∈ separators, nonSpace separator = [] := by
  decide

/-- The chunks of a text cover it. -/
theorem covers_chunkText (s : Text) : CoversText cfg (chunkText cfg s) (nonSpace s) := by
  unfold chunkText
  split_ifs with hblank
  · rw [nonSpace_eq_nil (stripWhile_eq_nil hblank)]
    exact covers_nil
  · exact covers_recursiveSplit cfg separators (by decide) nonSpace_separators s

end Recursion

end LocalGraphRag.Ingest
