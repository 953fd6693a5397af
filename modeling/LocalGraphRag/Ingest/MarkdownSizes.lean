import LocalGraphRag.Ingest.ChunkSizes
import LocalGraphRag.Ingest.MarkdownChunks
import LocalGraphRag.Sequences.Greedy
import Mathlib.Algebra.GroupWithZero.Nat

/-!
# The sizes of Markdown chunks

The paragraphs of a section are grouped greedily under a running length. The length counts
a separator only after something was counted, so it leaves out those after the empty
paragraphs a group begins with. Paragraphs that are too long go by the sizes of text
chunks.
-/

namespace LocalGraphRag.Ingest

open LocalGraphRag.Python LocalGraphRag.Sequences LocalGraphRag.Systems

variable (cfg : ChunkSettings)

/-- The empty paragraphs the buffer begins with. -/
def leadingEmpty (buf : List Text) : Nat := (buf.takeWhile List.isEmpty).length

/-- The running length: the buffer joined without the empty paragraphs it begins with. -/
def countedLength (buf : List Text) : Nat :=
  (join (text "\n\n") (buf.dropWhile List.isEmpty)).length

/-- The next paragraph fits into the buffer, by the running length. -/
def FitsBuffer (buf : List Text) (p : Text) : Prop :=
  countedLength buf + 2 + p.length ≤ cfg.maxChunkChars

variable {cfg} {buf : List Text} {p : Text}

@[simp] theorem countedLength_nil : countedLength [] = 0 := rfl

theorem countedLength_singleton (p : Text) : countedLength [p] = p.length := by
  cases p with
  | nil => rfl
  | cons c p => simp [countedLength]

theorem countedLength_concat (buf : List Text) (p : Text) :
    countedLength (buf ++ [p]) =
      countedLength buf + (p.length + if countedLength buf ≠ 0 then 2 else 0) := by
  induction buf with
  | nil => simp [countedLength_singleton]
  | cons q buf ih =>
      cases q with
      | nil => exact ih
      | cons c q =>
          have hpos : countedLength ((c :: q) :: buf) ≠ 0 := by
            simp only [countedLength, List.dropWhile_cons, List.isEmpty_cons]
            rw [if_neg Bool.false_ne_true, length_join_cons, List.length_cons]
            omega
          have hmore : 1 < ((c :: q) :: buf ++ [p]).length := by simp
          rw [if_pos hpos]
          simp only [countedLength, List.cons_append, List.dropWhile_cons, List.isEmpty_cons,
            Bool.false_eq_true, if_false]
          rw [← List.cons_append, length_join_concat, if_pos hmore]
          rfl

/-- The joined buffer is longer than the running length by the separators after the empty
paragraphs it begins with. -/
theorem length_join_buffer (buf : List Text) : (join (text "\n\n") buf).length =
    countedLength buf + 2 * min (leadingEmpty buf) (buf.length - 1) := by
  induction buf with
  | nil => rfl
  | cons q buf ih =>
      cases q with
      | cons c q => simp [countedLength, leadingEmpty]
      | nil =>
          have hcounted : countedLength ([] :: buf) = countedLength buf := rfl
          have hleading : leadingEmpty ([] :: buf) = leadingEmpty buf + 1 := rfl
          have hsep : (text "\n\n").length = 2 := by decide
          rw [length_join_cons, ih, hcounted, hleading, hsep, List.length_cons, List.length_nil]
          by_cases hbuf : buf = []
          · rw [hbuf]
            rfl
          · have hpos := List.length_pos_iff.mpr hbuf
            rw [if_pos hbuf]
            omega

section Groups

/-- The chunks of a group keep to the limit: a paragraph that is too long fits as a text,
and a group that begins with empty paragraphs has room for the separators after them. -/
structure GroupFits (cfg : ChunkSettings) (g : List Text) : Prop where
  long : ∀ p, g = [p] → cfg.maxChunkChars < p.length →
    strip p = [] ∨ OverlapsFit cfg cfg.maxChunkChars separators p
  empty : g.head? = some [] →
    countedLength g + 2 * min (leadingEmpty g) (g.length - 1) ≤ cfg.maxChunkChars

/-- By the running length, a group of short paragraphs is within the limit. -/
theorem countedLength_le_of_packed (h : Packed (FitsBuffer cfg) buf)
    (hshort : ∀ p ∈ buf, p.length ≤ cfg.maxChunkChars) :
    countedLength buf ≤ cfg.maxChunkChars := by
  obtain rfl | ⟨init, last, rfl⟩ := List.eq_nil_or_concat' buf
  · exact Nat.zero_le _
  · by_cases hinit : init = []
    · rw [hinit, List.nil_append, countedLength_singleton]
      exact hshort last (List.mem_concat_self ..)
    · have hfits : FitsBuffer cfg init last := h init last hinit List.prefix_rfl
      rw [FitsBuffer] at hfits
      rw [countedLength_concat]
      split_ifs <;> omega

/-- A chunk of short paragraphs keeps to the limit exactly when its group fits. -/
theorem buffer_fits_iff (hbuf : buf ≠ []) (h : Packed (FitsBuffer cfg) buf)
    (hshort : ∀ p ∈ buf, p.length ≤ cfg.maxChunkChars) :
    (join (text "\n\n") buf).length ≤ cfg.maxChunkChars ↔ GroupFits cfg buf := by
  have hcounted := countedLength_le_of_packed h hshort
  rw [length_join_buffer]
  constructor
  · intro hfit
    refine ⟨?_, fun _ => hfit⟩
    intro p hp hlong
    have hle := hshort p (hp ▸ List.mem_singleton_self p)
    omega
  · intro hfit
    obtain ⟨q, rest, rfl⟩ := List.exists_cons_of_ne_nil hbuf
    cases q with
    | nil => exact hfit.empty rfl
    | cons c q => simpa [leadingEmpty] using hcounted

/-- The chunks of a paragraph that is too long keep to the limit exactly when its group
fits. -/
theorem long_fits_iff (hlong : cfg.maxChunkChars < p.length) :
    (∀ c ∈ chunkText cfg p, c.length ≤ cfg.maxChunkChars) ↔ GroupFits cfg [p] := by
  rw [chunkText_fit cfg.size_le]
  constructor
  · intro hfit
    refine ⟨?_, ?_⟩
    · intro q hq _
      obtain ⟨rfl, -⟩ := List.cons_eq_cons.mp hq
      exact hfit
    · intro hempty
      rw [List.head?_singleton, Option.some_inj] at hempty
      rw [hempty] at hlong
      exact absurd hlong (Nat.not_lt_zero _)
  · intro hfit
    exact hfit.long p rfl hlong

/-- The closed groups and the buffer are the groups of the paragraphs gone through, and the
chunks of the closed groups keep to the limit exactly when these fit. -/
structure Grouped (cfg : ChunkSettings) (σ : ParagraphState) (closed : List (List Text))
    (done : List Text) : Prop where
  length : σ.bufLen = countedLength σ.buf
  short : ∀ p ∈ σ.buf, p.length ≤ cfg.maxChunkChars
  greedy : Greedy (FitsBuffer cfg) done (closed ++ openGroup σ.buf)
  fit : (∀ c ∈ σ.finalChunks.flatten, c.length ≤ cfg.maxChunkChars) ↔
    ∀ g ∈ closed, GroupFits cfg g

/-- The last closed group takes no paragraph of any length. -/
def LastFull (cfg : ChunkSettings) (closed : List (List Text)) : Prop :=
  ∀ g ∈ closed.getLast?, cfg.maxChunkChars < countedLength g

variable {σ : ParagraphState} {closed : List (List Text)} {done : List Text}

theorem grouped_nil : Grouped cfg ⟨[], [], 0⟩ [] [] :=
  ⟨rfl, by simp, greedy_nil, by simp⟩

/-- The buffer becomes a closed group. -/
theorem Grouped.close (h : Grouped cfg σ closed done) (hbuf : σ.buf ≠ []) :
    Grouped cfg ⟨σ.finalChunks ++ [[join (text "\n\n") σ.buf]], [], 0⟩ (closed ++ [σ.buf])
      done := by
  have hgreedy := h.greedy
  rw [openGroup_of_ne_nil hbuf] at hgreedy
  refine ⟨rfl, by simp, ?_, ?_⟩
  · rw [openGroup_nil, List.append_nil]
    exact hgreedy
  · have hpacked := hgreedy.packed σ.buf (List.mem_concat_self ..)
    rw [List.flatten_append, List.forall_mem_append, List.forall_mem_append, h.fit,
      List.flatten_singleton, List.forall_mem_singleton, List.forall_mem_singleton,
      buffer_fits_iff hbuf hpacked h.short]

theorem Grouped.closeBuffer (h : Grouped cfg σ closed done)
    (hlast : σ.buf = [] → LastFull cfg closed) (p : Text) :
    ∃ closed', Grouped cfg (closeBuffer cfg σ p) closed' done ∧
      ((closeBuffer cfg σ p).buf ≠ [] → FitsBuffer cfg (closeBuffer cfg σ p).buf p) ∧
      ((closeBuffer cfg σ p).buf = [] → ∀ g ∈ closed'.getLast?, ¬FitsBuffer cfg g p) := by
  by_cases hfull : σ.buf ≠ [] ∧
      σ.bufLen + (p.length + if σ.buf ≠ [] then 2 else 0) > cfg.maxChunkChars
  · rw [Ingest.closeBuffer, if_pos hfull]
    obtain ⟨hbuf, hover⟩ := hfull
    refine ⟨closed ++ [σ.buf], h.close hbuf, fun hne => absurd rfl hne, ?_⟩
    intro _ g hg
    rw [List.getLast?_concat, Option.mem_some_iff] at hg
    rw [if_pos hbuf, h.length] at hover
    rw [← hg, FitsBuffer]
    omega
  · rw [Ingest.closeBuffer, if_neg hfull]
    refine ⟨closed, h, ?_, ?_⟩
    · intro hbuf
      have hroom := not_and.mp hfull hbuf
      rw [if_pos hbuf, h.length] at hroom
      rw [FitsBuffer]
      omega
    · intro hbuf g hg
      have hover := hlast hbuf g hg
      rw [FitsBuffer]
      omega

theorem Grouped.addParagraph (h : Grouped cfg σ closed done)
    (hfits : σ.buf ≠ [] → FitsBuffer cfg σ.buf p)
    (hcut : σ.buf = [] → ∀ g ∈ closed.getLast?, ¬FitsBuffer cfg g p) :
    ∃ closed', Grouped cfg (addParagraph cfg σ p) closed' (done ++ [p]) ∧
      ((addParagraph cfg σ p).buf = [] → LastFull cfg closed') := by
  have hnext := h.greedy.next hfits hcut
  by_cases hlong : p.length > cfg.maxChunkChars
  · rw [Ingest.addParagraph, if_pos hlong]
    have hbuf : σ.buf = [] := by
      by_contra hne
      have hroom := hfits hne
      rw [FitsBuffer] at hroom
      omega
    rw [hbuf, List.nil_append, openGroup_of_ne_nil (List.cons_ne_nil p [])] at hnext
    refine ⟨closed ++ [[p]], ⟨?_, ?_, ?_, ?_⟩, ?_⟩
    · rw [h.length]
    · exact h.short
    · rw [hbuf, openGroup_nil, List.append_nil]
      exact hnext
    · rw [List.flatten_append, List.forall_mem_append, List.forall_mem_append, h.fit,
        List.flatten_singleton, List.forall_mem_singleton, long_fits_iff hlong]
    · intro _ g hg
      rw [List.getLast?_concat, Option.mem_some_iff] at hg
      rw [← hg, countedLength_singleton]
      exact hlong
  · rw [Ingest.addParagraph, if_neg hlong]
    have hshort : ∀ q ∈ σ.buf ++ [p], q.length ≤ cfg.maxChunkChars :=
      List.forall_mem_append.mpr
        ⟨h.short, List.forall_mem_singleton.mpr (Nat.le_of_not_lt hlong)⟩
    refine ⟨closed, ⟨?_, hshort, hnext, h.fit⟩, fun hempty => absurd hempty ?_⟩
    · rw [h.length, countedLength_concat]
    · exact List.concat_ne_nil p σ.buf

/-- Some groups are closed, and without a buffer the last of them is full. -/
def GroupedSoFar (cfg : ChunkSettings) (σ : ParagraphState) (done : List Text) : Prop :=
  ∃ closed, Grouped cfg σ closed done ∧ (σ.buf = [] → LastFull cfg closed)

theorem groupedSoFar_foldl (cfg : ChunkSettings) (paragraphs : List Text) :
    GroupedSoFar cfg (paragraphs.foldl
      (fun σ p => Ingest.addParagraph cfg (Ingest.closeBuffer cfg σ p) p) ⟨[], [], 0⟩)
      paragraphs := by
  apply foldl_invariant _ (GroupedSoFar cfg)
  · exact ⟨[], grouped_nil, by simp [LastFull]⟩
  · intro done p _ σ h
    obtain ⟨closed, hclosed, hlast⟩ := h
    obtain ⟨closed', hclosed', hfits, hcut⟩ := hclosed.closeBuffer hlast p
    exact hclosed'.addParagraph hfits hcut

/-- The groups of a section fit: those of its paragraphs, by the running length. -/
def SectionFits (cfg : ChunkSettings) (s : Text) : Prop :=
  ∀ groups, Greedy (FitsBuffer cfg) (split (text "\n\n") s) groups →
    ∀ g ∈ groups, GroupFits cfg g

theorem splitOversizedMarkdownSection_fit {s : Text} (hlong : cfg.maxChunkChars < s.length) :
    (∀ c ∈ (splitOversizedMarkdownSection cfg s).flatten, c.length ≤ cfg.maxChunkChars) ↔
      SectionFits cfg s := by
  rw [splitOversizedMarkdownSection, if_neg (Nat.not_le_of_lt hlong)]
  obtain ⟨closed, hall, -⟩ := groupedSoFar_foldl cfg (split (text "\n\n") s)
  generalize (split (text "\n\n") s).foldl _ _ = σ at hall ⊢
  have hone : SectionFits cfg s ↔ ∀ g ∈ closed ++ openGroup σ.buf, GroupFits cfg g := by
    constructor
    · intro h
      exact h _ hall.greedy
    · intro h groups hgroups
      rw [hgroups.unique hall.greedy]
      exact h
  rw [hone]
  by_cases hbuf : σ.buf = []
  · rw [if_neg (not_not.mpr hbuf), hbuf, openGroup_nil, List.append_nil]
    exact hall.fit
  · rw [if_pos hbuf, openGroup_of_ne_nil hbuf]
    exact (hall.close hbuf).fit

/-- Every chunk of a Markdown document has at most `MAX_MD_CHUNK` characters exactly when
the groups of every section that is longer fit. -/
theorem chunkMarkdown_within_limit_iff (cfg : ChunkSettings) (s : Text) :
    (∀ c ∈ chunkMarkdown cfg s, c.length ≤ cfg.maxChunkChars) ↔
      ∀ part ∈ splitMarkdownSections s, cfg.maxChunkChars < part.length →
        SectionFits cfg part := by
  have hpart : ∀ part, (∀ c ∈ (splitOversizedMarkdownSection cfg part).flatten,
      c.length ≤ cfg.maxChunkChars) ↔ (cfg.maxChunkChars < part.length → SectionFits cfg part) := by
    intro part
    by_cases hlong : cfg.maxChunkChars < part.length
    · simp only [splitOversizedMarkdownSection_fit hlong, hlong, true_implies]
    · have hle := Nat.le_of_not_lt hlong
      simp [splitOversizedMarkdownSection, hle, hlong]
  simp only [chunkMarkdown, markdownPieces, List.mem_flatten, List.mem_flatMap] at hpart ⊢
  constructor
  · intro h part hmem
    rw [← hpart]
    intro c ⟨piece, hpiece, hc⟩
    exact h c ⟨piece, ⟨part, hmem, hpiece⟩, hc⟩
  · intro h c ⟨piece, ⟨part, hmem, hpiece⟩, hc⟩
    exact (hpart part).mpr (h part hmem) c ⟨piece, hpiece, hc⟩

/-- After a full paragraph, two empty ones are counted as nothing: with chunks of six
characters the last one has eight. -/
theorem not_chunkMarkdown_within_limit : ¬∀ (cfg : ChunkSettings) (s : Text),
    ∀ c ∈ chunkMarkdown cfg s, c.length ≤ cfg.maxChunkChars := by
  intro h
  let cfg : ChunkSettings := ⟨6, 0, 6, by decide, by decide⟩
  have hlong : text "\n\n\n\nbbbb" ∈ chunkMarkdown cfg (text "aaaaaa\n\n\n\n\n\nbbbb") := by
    decide
  exact absurd (h cfg _ _ hlong) (by decide)

end Groups

end LocalGraphRag.Ingest
