import LocalGraphRag.Ingest.MarkdownChunks
import LocalGraphRag.Sequences.Greedy
import LocalGraphRag.Sequences.Regions

/-!
# Sections and fenced blocks

Where a fenced block begins and ends is said of all the lines of a document at once: a line
that can open one does so unless it is inside another, and the block ends with the first
line that can close it. The sections begin at the headers outside these blocks.
-/

namespace LocalGraphRag.Ingest

open LocalGraphRag.Python LocalGraphRag.Sequences LocalGraphRag.Systems

section Lines

/-- At most three spaces, then three or more of one fence character, then the rest of the
line. -/
def FenceRun (line : Text) (c : CodePoint) (run : Nat) (rest : Text) : Prop :=
  3 ≤ run ∧ (c = 0x60 ∨ c = 0x7e) ∧ ∃ indent, indent ≤ 3 ∧
    line = List.replicate indent 0x20 ++ (List.replicate run c ++ rest)

/-- The line begins with a run of fence characters, and after backticks there is no further
backtick. -/
def OpensFence (line : Text) : Prop :=
  ∃ c run rest, FenceRun line c run rest ∧ rest.head? ≠ some c ∧ (c = 0x60 → 0x60 ∉ rest)

/-- The line closes the block that `opening` opened: a run of the same character that is at
least as long, and only whitespace after it. -/
def ClosesFence (opening line : Text) : Prop :=
  ∃ c run rest run' rest', FenceRun opening c run rest ∧ rest.head? ≠ some c ∧
    FenceRun line c run' rest' ∧ run ≤ run' ∧ ∀ d ∈ rest', isSpace d = true

/-- One to six `#` and a space at the start of the line. -/
def HeaderLine (line : Text) : Prop :=
  ∃ hashes rest, 1 ≤ hashes ∧ hashes ≤ 6 ∧ line = List.replicate hashes 0x23 ++ 0x20 :: rest

variable {line opening marker rest : Text} {c d : CodePoint} {run indent : Nat}

theorem takeWhile_run (h : rest.head? ≠ some c) :
    (List.replicate run c ++ rest).takeWhile (fun d => d == c) = List.replicate run c := by
  rw [List.takeWhile_append_of_pos (by simp)]
  cases rest with
  | nil => simp
  | cons d rest =>
      have hd : d ≠ c := fun hdc => h (by rw [hdc]; rfl)
      simp [hd]

theorem dropWhile_run (h : rest.head? ≠ some c) :
    (List.replicate run c ++ rest).dropWhile (fun d => d == c) = rest := by
  rw [List.dropWhile_append_of_pos (by simp)]
  cases rest with
  | nil => rfl
  | cons d rest =>
      have hd : d ≠ c := fun hdc => h (by rw [hdc]; rfl)
      simp [hd]

/-- A text begins with a run of any character, possibly an empty one. -/
theorem exists_run (c : CodePoint) (s : Text) :
    ∃ run rest, s = List.replicate run c ++ rest ∧ rest.head? ≠ some c := by
  induction s with
  | nil => exact ⟨0, [], rfl, by simp⟩
  | cons d s ih =>
      by_cases hd : d = c
      · obtain ⟨run, rest, hs, hrest⟩ := ih
        exact ⟨run + 1, rest, by rw [hs, hd]; rfl, hrest⟩
      · exact ⟨0, d :: s, rfl, by simpa using hd⟩

/-- The pattern on a line in terms of its runs. -/
theorem fence_runs (hc : c ≠ 0x20) (hrun : 0 < run) (hrest : rest.head? ≠ some c) :
    fence (List.replicate indent 0x20 ++ (List.replicate run c ++ rest)) =
      if indent ≤ 3 ∧ 3 ≤ run ∧ (c = 0x60 ∨ c = 0x7e) then some (List.replicate run c, rest)
      else none := by
  have hhead : (List.replicate run c ++ rest).head? = some c := by
    obtain ⟨n, rfl⟩ := Nat.exists_eq_add_of_lt hrun
    rw [Nat.zero_add, List.replicate_succ]
    rfl
  have hindent : (List.replicate run c ++ rest).head? ≠ some 0x20 := by
    rw [hhead]
    simpa using hc
  have hmarker : (List.replicate run c).head? = some c := by
    obtain ⟨n, rfl⟩ := Nat.exists_eq_add_of_lt hrun
    rw [Nat.zero_add, List.replicate_succ]
    rfl
  simp only [fence, dropWhile_run hindent, takeWhile_run hindent, hhead, Option.some_beq_some,
    takeWhile_run hrest, List.length_replicate, hmarker, Option.some_inj,
    List.drop_left' List.length_replicate]

/-- A line is empty after its indent, or goes on with a run of another character. -/
theorem exists_indent (line : Text) : (∃ indent, line = List.replicate indent 0x20) ∨
    ∃ indent c run rest, c ≠ 0x20 ∧ 0 < run ∧ rest.head? ≠ some c ∧
      line = List.replicate indent 0x20 ++ (List.replicate run c ++ rest) := by
  obtain ⟨indent, unindented, rfl, hindent⟩ := exists_run 0x20 line
  cases unindented with
  | nil => exact Or.inl ⟨indent, List.append_nil _⟩
  | cons c s =>
      obtain ⟨run, rest, rfl, hrest⟩ := exists_run c s
      have hc : c ≠ 0x20 := fun h => hindent (by rw [h]; rfl)
      exact Or.inr ⟨indent, c, run + 1, rest, hc, Nat.succ_pos run, hrest, rfl⟩

/-- The pattern matches the lines that begin with a fence, and finds its whole run. -/
theorem fence_eq_some_iff : fence line = some (marker, rest) ↔
    ∃ c run, FenceRun line c run rest ∧ rest.head? ≠ some c ∧
      marker = List.replicate run c := by
  constructor
  · intro h
    obtain ⟨indent, rfl⟩ | ⟨indent, c, run, rest', hc, hrun, hrest, rfl⟩ := exists_indent line
    · simp [fence] at h
    · rw [fence_runs hc hrun hrest] at h
      obtain ⟨⟨hindent, hlong, hchar⟩, heq⟩ := Option.ite_none_right_eq_some.mp h
      obtain ⟨rfl, rfl⟩ := Prod.mk.inj (Option.some_inj.mp heq)
      exact ⟨c, run, ⟨hlong, hchar, indent, hindent, rfl⟩, hrest, rfl⟩
  · intro ⟨c, run, ⟨hlong, hchar, indent, hindent, hline⟩, hrest, hmarker⟩
    have hc : c ≠ 0x20 := by
      obtain rfl | rfl := hchar <;> decide
    rw [hline, fence_runs hc (by omega) hrest, if_pos ⟨hindent, hlong, hchar⟩, hmarker]

theorem head_space_ne_hash (rest : Text) : (0x20 :: rest).head? ≠ some (0x23 : CodePoint) := by
  rw [List.head?_cons, Option.some_inj.ne]
  decide

/-- The pattern of a header. -/
theorem isHeader_iff : isHeader line = true ↔ HeaderLine line := by
  obtain ⟨hashes, rest, rfl, hrest⟩ := exists_run 0x23 line
  have hheader : isHeader (List.replicate hashes 0x23 ++ rest) = true ↔
      (1 ≤ hashes ∧ hashes ≤ 6) ∧ rest.head? = some 0x20 := by
    simp [isHeader, takeWhile_run hrest, List.drop_left']
  rw [hheader]
  constructor
  · intro ⟨⟨hpos, hle⟩, hspace⟩
    obtain ⟨after, rfl⟩ := List.head?_eq_some_iff.mp hspace
    exact ⟨hashes, after, hpos, hle, rfl⟩
  · intro ⟨hashes', after, hpos, hle, hline⟩
    have hrun := congrArg (List.takeWhile fun d => d == 0x23) hline
    have hafter := congrArg (List.dropWhile fun d => d == 0x23) hline
    rw [takeWhile_run hrest, takeWhile_run (head_space_ne_hash after)] at hrun
    rw [dropWhile_run hrest, dropWhile_run (head_space_ne_hash after)] at hafter
    have hlen := congrArg List.length hrun
    rw [List.length_replicate, List.length_replicate] at hlen
    rw [hafter, hlen]
    exact ⟨⟨hpos, hle⟩, rfl⟩

/-- A header is no fence. -/
theorem fence_header (h : HeaderLine line) : fence line = none := by
  obtain ⟨hashes, after, hpos, -, rfl⟩ := h
  have hruns : fence (List.replicate 0 0x20 ++ (List.replicate hashes 0x23 ++ 0x20 :: after)) = _ :=
    fence_runs (by decide) hpos (head_space_ne_hash after)
  rw [if_neg (fun hfence => absurd hfence.2.2 (by decide))] at hruns
  exact hruns

theorem FenceRun.head (h : FenceRun line c run rest) : (List.replicate run c).head? = some c := by
  obtain ⟨n, rfl⟩ := Nat.exists_eq_add_of_le h.1
  rw [Nat.add_comm, List.replicate_succ]
  rfl

/-- Outside a block, a fence opens one unless it is inline code. -/
theorem nextFence_none (h : fence line = some (marker, rest)) [Decidable (OpensFence line)] :
    nextFence none marker rest = if OpensFence line then some marker else none := by
  obtain ⟨c, run, hrun, hrest, rfl⟩ := fence_eq_some_iff.mp h
  have hopens : OpensFence line ↔ ¬(c = 0x60 ∧ 0x60 ∈ rest) := by
    constructor
    · intro ⟨c', run', rest', hrun', hrest', hinline⟩
      have hsame := fence_eq_some_iff.mpr ⟨c', run', hrun', hrest', rfl⟩
      rw [h, Option.some_inj, Prod.mk.injEq] at hsame
      have hhead := congrArg List.head? hsame.1
      rw [hrun.head, hrun'.head, Option.some_inj] at hhead
      rw [hhead, hsame.2]
      exact fun hboth => hinline hboth.1 hboth.2
    · intro hinline
      exact ⟨c, run, rest, hrun, hrest, fun hc hmem => hinline ⟨hc, hmem⟩⟩
  simp only [nextFence, hrun.head, Option.some_inj]
  by_cases hinline : c = 0x60 ∧ 0x60 ∈ rest
  · rw [if_pos hinline, if_neg (fun h => hopens.mp h hinline)]
  · rw [if_neg hinline, if_pos (hopens.mpr hinline)]

/-- A run with only whitespace after it is a whole run. -/
theorem fence_of_blank_rest (hrun : FenceRun line c run rest)
    (hblank : ∀ d ∈ rest, isSpace d = true) :
    fence line = some (List.replicate run c, rest) := by
  apply fence_eq_some_iff.mpr
  refine ⟨c, run, hrun, ?_, rfl⟩
  intro hhead
  have hspace := hblank c (List.mem_of_mem_head? hhead)
  obtain rfl | rfl := hrun.2.1 <;> exact absurd hspace (by decide)

/-- Inside a block, a fence that can close it does. -/
theorem nextFence_some {marker' rest' : Text} (ho : fence opening = some (marker, rest))
    (hl : fence line = some (marker', rest')) [Decidable (ClosesFence opening line)] :
    nextFence (some marker) marker' rest' =
      if ClosesFence opening line then none else some marker := by
  obtain ⟨c, run, hrun, hrest, rfl⟩ := fence_eq_some_iff.mp ho
  obtain ⟨c', run', hrun', hrest', rfl⟩ := fence_eq_some_iff.mp hl
  have hcloses : ClosesFence opening line ↔ c' = c ∧ run ≤ run' ∧ strip rest' = [] := by
    constructor
    · intro ⟨d, n, after, n', after', hn, hafter, hn', hle, hblank⟩
      have hsame := fence_eq_some_iff.mpr ⟨d, n, hn, hafter, rfl⟩
      have hsame' := fence_of_blank_rest hn' hblank
      rw [ho, Option.some_inj, Prod.mk.injEq] at hsame
      rw [hl, Option.some_inj, Prod.mk.injEq] at hsame'
      have hhead := congrArg List.head? hsame.1
      have hhead' := congrArg List.head? hsame'.1
      have hlen := congrArg List.length hsame.1
      have hlen' := congrArg List.length hsame'.1
      rw [hrun.head, hn.head, Option.some_inj] at hhead
      rw [hrun'.head, hn'.head, Option.some_inj] at hhead'
      rw [List.length_replicate, List.length_replicate] at hlen hlen'
      refine ⟨hhead'.trans hhead.symm, by omega, ?_⟩
      rw [hsame'.2]
      exact stripWhile_eq_nil_iff.mpr hblank
    · intro ⟨hchar, hle, hblank⟩
      rw [hchar] at hrun'
      exact ⟨c, run, rest, run', rest', hrun, hrest, hrun', hle, stripWhile_eq_nil hblank⟩
  simp only [nextFence, hrun.head, hrun'.head, Option.some_inj, List.length_replicate]
  by_cases hclose : c' = c ∧ run ≤ run' ∧ strip rest' = []
  · rw [if_pos hclose, if_pos (hcloses.mpr hclose)]
  · rw [if_neg hclose, if_neg (fun h => hclose (hcloses.mp h))]

/-- A line without a fence neither opens nor closes a block. -/
theorem not_opensFence (h : fence line = none) : ¬OpensFence line := by
  intro ⟨c, run, rest, hrun, hrest, _⟩
  rw [fence_eq_some_iff.mpr ⟨c, run, hrun, hrest, rfl⟩] at h
  exact absurd h (Option.some_ne_none _)

theorem not_closesFence (h : fence line = none) : ¬ClosesFence opening line := by
  intro ⟨_, _, _, _, _, _, _, hrun, _, hblank⟩
  rw [fence_of_blank_rest hrun hblank] at h
  exact absurd h (Option.some_ne_none _)

end Lines

section Blocks
variable (lines : List Text)

/-- The line belongs to a fenced block. -/
def InFence (i : Nat) : Prop := Inside OpensFence ClosesFence lines i

/-- The line is a header outside the fenced blocks. -/
def StartsSection (l : Text × Nat) : Prop := HeaderLine l.1 ∧ ¬InFence lines l.2

/-- The blocks of lines of a document: a block other than the first begins exactly at the
lines that start a section. -/
structure SectionBlocks (blocks : List (List Text)) : Prop where
  flatten : blocks.flatten = lines
  ne_nil : ∀ b ∈ blocks, b ≠ []
  starts_iff : ∀ i line, 0 < i → lines[i]? = some line →
    ((∃ before after, blocks = before ++ after ∧ before.flatten.length = i) ↔
      HeaderLine line ∧ ¬InFence lines i)

/-- The marker in hand is that of the line whose block is open. -/
def FenceState (i : Nat) (openFence : Option Text) : Prop :=
  (openFence = none ∧ ∀ x, ¬OpenAt OpensFence ClosesFence lines i x) ∨
    ∃ x marker rest, openFence = some marker ∧ fence x = some (marker, rest) ∧
      OpenAt OpensFence ClosesFence lines i x

variable {lines} {line : Text} {i : Nat} {openFence : Option Text}

/-- The marker after the line. -/
def fenceAfter (openFence : Option Text) (line : Text) : Option Text :=
  match fence line with
  | some (marker, rest) => nextFence openFence marker rest
  | none => openFence

open Classical in
theorem FenceState.step (h : FenceState lines i openFence) (hline : lines[i]? = some line) :
    FenceState lines (i + 1) (fenceAfter openFence line) := by
  obtain ⟨rfl, hclosed⟩ | ⟨x, marker, rest, rfl, hx, hopen⟩ := h
  · have hnext : ∀ y, OpenAt OpensFence ClosesFence lines (i + 1) y ↔
        OpensFence line ∧ y = line := fun y => openAt_succ_of_closed hline hclosed
    cases hfence : fence line with
    | none =>
        rw [fenceAfter, hfence]
        exact Or.inl ⟨rfl, fun y hy => not_opensFence hfence ((hnext y).mp hy).1⟩
    | some found =>
        simp only [fenceAfter, hfence]
        rw [nextFence_none hfence]
        by_cases hopens : OpensFence line
        · rw [if_pos hopens]
          exact Or.inr ⟨line, found.1, found.2, rfl, hfence, (hnext line).mpr ⟨hopens, rfl⟩⟩
        · rw [if_neg hopens]
          exact Or.inl ⟨rfl, fun y hy => hopens ((hnext y).mp hy).1⟩
  · have hnext : ∀ y, OpenAt OpensFence ClosesFence lines (i + 1) y ↔
        y = x ∧ ¬ClosesFence x line := fun y => openAt_succ_of_open hline hopen
    cases hfence : fence line with
    | none =>
        rw [fenceAfter, hfence]
        exact Or.inr ⟨x, marker, rest, rfl, hx, (hnext x).mpr ⟨rfl, not_closesFence hfence⟩⟩
    | some found =>
        simp only [fenceAfter, hfence]
        rw [nextFence_some hx hfence]
        by_cases hcloses : ClosesFence x line
        · rw [if_pos hcloses]
          exact Or.inl ⟨rfl, fun y hy => ((hnext y).mp hy).2 hcloses⟩
        · rw [if_neg hcloses]
          exact Or.inr ⟨x, marker, rest, rfl, hx, (hnext x).mpr ⟨rfl, hcloses⟩⟩

/-- A header starts a section when no block is open. -/
theorem FenceState.startsSection_iff (h : FenceState lines i openFence)
    (hline : lines[i]? = some line) :
    StartsSection lines (line, i) ↔ openFence = none ∧ isHeader line = true := by
  rw [StartsSection, InFence, inside_iff, isHeader_iff]
  constructor
  · intro ⟨hheader, hout⟩
    refine ⟨?_, hheader⟩
    obtain ⟨hnone, -⟩ | ⟨x, marker, rest, -, -, hopen⟩ := h
    · exact hnone
    · exact absurd (Or.inr ⟨x, hopen⟩) hout
  · intro ⟨hnone, hheader⟩
    refine ⟨hheader, ?_⟩
    intro hin
    obtain hopens | ⟨x, hopen⟩ := hin
    · obtain ⟨y, hy, hopens⟩ := hopens.exists_item
      rw [hline, Option.some_inj] at hy
      exact not_opensFence (fence_header hheader) (hy ▸ hopens)
    · obtain ⟨-, hclosed⟩ | ⟨_, _, _, hsome, _⟩ := h
      · exact hclosed x hopen
      · rw [hnone] at hsome
        exact absurd hsome.symm (Option.some_ne_none _)

theorem startSection_eq (σ : SectionState) (line : Text) : startSection σ line =
    if σ.openFence = none ∧ isHeader line = true ∧ σ.current ≠ [] then
      ⟨σ.sections ++ [join (text "\n") σ.current], [], fenceAfter σ.openFence line⟩
    else { σ with openFence := fenceAfter σ.openFence line } := by
  cases hfence : fence line with
  | none =>
      simp only [startSection, fenceAfter, hfence]
  | some found =>
      have hheader : isHeader line ≠ true := by
        intro h
        rw [fence_header (isHeader_iff.mp h)] at hfence
        exact absurd hfence.symm (Option.some_ne_none _)
      rw [if_neg fun h => hheader h.2.1]
      simp only [startSection, fenceAfter, hfence]

/-- The lines of a block. -/
def blockLines (b : List (Text × Nat)) : List Text := b.map Prod.fst

/-- The sections and the lines in hand are the blocks of the lines gone through. -/
structure Sectioned (lines : List Text) (σ : SectionState) (done : List Text) : Prop where
  fence : FenceState lines done.length σ.openFence
  blocks : ∃ closed current, σ.sections = closed.map (fun b => join (text "\n") (blockLines b)) ∧
    σ.current = blockLines current ∧ (current = [] → closed = []) ∧
    Greedy (fun _ l => ¬StartsSection lines l) done.zipIdx (closed ++ openGroup current)

theorem sectioned_nil : Sectioned lines ⟨[], [], none⟩ [] :=
  ⟨Or.inl ⟨rfl, fun _ => not_openAt_zero⟩, [], [], rfl, rfl, fun _ => rfl, greedy_nil⟩

theorem blockLines_concat (b : List (Text × Nat)) (line : Text) (i : Nat) :
    blockLines (b ++ [(line, i)]) = blockLines b ++ [line] := List.map_append

theorem Sectioned.step {σ : SectionState} {done : List Text} (h : Sectioned lines σ done)
    (hline : lines[done.length]? = some line) :
    Sectioned lines (addLine (startSection σ line) line) (done ++ [line]) := by
  obtain ⟨closed, current, hsections, hcurrent, hempty, hblocks⟩ := h.blocks
  have hstarts := h.fence.startsSection_iff hline
  have hzip : (done ++ [line]).zipIdx = done.zipIdx ++ [(line, done.length)] := by
    simp [List.zipIdx_append]
  have hnil : σ.current = [] ↔ current = [] := by
    rw [hcurrent, blockLines, List.map_eq_nil_iff]
  have hfence := h.fence.step hline
  rw [startSection_eq]
  by_cases hcut : σ.openFence = none ∧ isHeader line = true ∧ σ.current ≠ []
  · rw [if_pos hcut]
    have hne : current ≠ [] := mt hnil.mpr hcut.2.2
    refine ⟨by simpa [addLine] using hfence, closed ++ [current], [(line, done.length)], ?_, rfl,
      fun h => absurd h (List.cons_ne_nil _ _), ?_⟩
    · simp only [addLine, hsections, hcurrent, List.map_append, List.map_singleton]
    · rw [hzip]
      rw [openGroup_of_ne_nil hne] at hblocks
      apply hblocks.start
      intro g hg
      exact not_not.mpr (hstarts.mpr ⟨hcut.1, hcut.2.1⟩)
  · rw [if_neg hcut]
    refine ⟨by simpa [addLine] using hfence, closed, current ++ [(line, done.length)], hsections,
      ?_, fun h => absurd h (List.concat_ne_nil _ _), ?_⟩
    · rw [blockLines_concat, ← hcurrent]
      rfl
    · rw [hzip]
      apply hblocks.next
      · intro hne hstart
        obtain ⟨hnone, hheader⟩ := hstarts.mp hstart
        exact hcut ⟨hnone, hheader, mt hnil.mp hne⟩
      · intro hcurrentnil
        simp [hempty hcurrentnil]

theorem sectioned_foldl (lines : List Text) : Sectioned lines
    (lines.foldl (fun σ line => addLine (startSection σ line) line) ⟨[], [], none⟩) lines := by
  apply foldl_invariant _ (Sectioned lines) sectioned_nil
  intro done line hdone σ h
  obtain ⟨rest, hrest⟩ := hdone
  have hline : lines[done.length]? = some line := by
    rw [← hrest]
    simp
  exact h.step hline

theorem flatten_blockLines (groups : List (List (Text × Nat))) :
    (groups.map blockLines).flatten = groups.flatten.map Prod.fst :=
  List.map_flatten.symm

/-- The groups of numbered lines are the blocks of the document. -/
theorem sectionBlocks_of_greedy {groups : List (List (Text × Nat))}
    (h : Greedy (fun _ l => ¬StartsSection lines l) lines.zipIdx groups) :
    SectionBlocks lines (groups.map blockLines) := by
  refine ⟨?_, ?_, ?_⟩
  · rw [flatten_blockLines, h.flatten]
    exact List.zipIdx_map_fst ..
  · intro b hb
    obtain ⟨g, hg, rfl⟩ := List.mem_map.mp hb
    exact mt List.map_eq_nil_iff.mp (h.ne_nil g hg)
  · intro i line hi hline
    have hnumbered : lines.zipIdx[i]? = some (line, i) := by
      simp [List.getElem?_zipIdx, hline]
    change _ ↔ StartsSection lines (line, i)
    rw [← h.starts_iff hi hnumbered]
    constructor
    · intro ⟨before, after, hgroups, hlen⟩
      obtain ⟨before', after', rfl, rfl, rfl⟩ := List.map_eq_append_iff.mp hgroups
      rw [flatten_blockLines, List.length_map] at hlen
      exact ⟨before', after', rfl, hlen⟩
    · intro ⟨before, after, hgroups, hlen⟩
      refine ⟨before.map blockLines, after.map blockLines, ?_, ?_⟩
      · rw [hgroups, List.map_append]
      · rw [flatten_blockLines, List.length_map]
        exact hlen

/-- A document is cut at its headers outside the fenced blocks: its sections are the blocks
of lines joined and stripped, without those that are blank. -/
theorem splitMarkdownSections_blocks (s : Text) : ∃ blocks,
    SectionBlocks (splitlines s) blocks ∧ splitMarkdownSections s =
      ((blocks.map (join (text "\n"))).filter fun b => strip b ≠ []).map strip := by
  have hall := sectioned_foldl (splitlines s)
  rw [splitMarkdownSections]
  generalize (splitlines s).foldl _ _ = σ at hall ⊢
  obtain ⟨closed, current, hsections, hcurrent, -, hblocks⟩ := hall.blocks
  refine ⟨_, sectionBlocks_of_greedy hblocks, ?_⟩
  by_cases hnil : current = []
  · have hnone : σ.current = [] := by rw [hcurrent, hnil]; rfl
    rw [if_neg (not_not.mpr hnone), hsections, hnil, openGroup_nil, List.append_nil,
      List.map_map]
    rfl
  · have hsome : σ.current ≠ [] := by
      rw [hcurrent]
      exact mt List.map_eq_nil_iff.mp hnil
    rw [if_pos hsome, hsections, hcurrent, openGroup_of_ne_nil hnil, List.map_map,
      List.map_append, List.map_singleton]
    rfl

end Blocks

end LocalGraphRag.Ingest
