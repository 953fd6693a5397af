import LocalGraphRag.Ingest.TextChunks
import LocalGraphRag.Python.Marked
import LocalGraphRag.Sequences.Gaps
import Mathlib.Data.List.Flatten
import Mathlib.Data.List.Pairwise

/-!
# Chunks of Python modules

A module is cut into its top-level statements, without the imports, and the lines between
them. Where a statement starts and stops is known from `ast`, in whose numbering a line
ends with `\n`, `\r\n` or `\r`; the lines are those of `str.splitlines`.

## Implementation notes

`ast.parse` and `ast.get_source_segment` are given by the list of the top-level
statements, with their line numbers and the range of their source text. The segments are
those of a list of things that have a code point, so that the positions of a text can be
followed into its segments.
-/

namespace LocalGraphRag.Ingest

open LocalGraphRag.Python LocalGraphRag.Sequences

/-- What `chunk_python` asks of the type of a statement. -/
inductive AstKind where
  | importing
  | definition (name : Text)
  | other
  deriving DecidableEq

/-- A top-level statement; its source text is from `start` to before `stop`. -/
structure AstNode where
  kind : AstKind
  lineno : Nat
  endLineno : Nat
  start : Nat
  stop : Nat

/-- `def_name` of a statement. -/
def AstNode.defName (node : AstNode) : Option Text :=
  match node.kind with
  | .definition name => some name
  | _ => none

section Segments
variable {α : Type} (code : α → CodePoint)

/-- `_span`. -/
def span (lines : List (List α)) (first last : Nat) : List α :=
  stripMarked code ((lines.take last).drop (first - 1)).flatten

/-- `ast.get_source_segment`. -/
def getSourceSegment (s : List α) (node : AstNode) : List α := (s.take node.stop).drop node.start

/-- The segment of a statement: its source text, or else its lines. -/
def nodeSegment (s : List α) (node : AstNode) : List α :=
  let lines := linesKeep code isLineBreak s
  stripMarked code
    (if getSourceSegment s node ≠ [] then getSourceSegment s node
      else ((lines.take node.endLineno).drop (node.lineno - 1)).flatten)

/-- The loop over the statements, from the line `prevEnd` on, and what comes after it: the
segments that are passed to `_emit`. -/
def segmentsFrom (s : List α) : Nat → List AstNode → List (List α × Option Text)
  | prevEnd, [] =>
      let lines := linesKeep code isLineBreak s
      if prevEnd < lines.length then [(span code lines (prevEnd + 1) lines.length, none)] else []
  | prevEnd, node :: body =>
      let lines := linesKeep code isLineBreak s
      (if node.lineno > prevEnd + 1 then [(span code lines (prevEnd + 1) (node.lineno - 1), none)]
        else []) ++
      (if node.kind = .importing then [] else [(nodeSegment code s node, node.defName)]) ++
      segmentsFrom s node.endLineno body

section Map
variable {β : Type} (code : β → CodePoint) (f : α → β)

theorem map_span (lines : List (List α)) (first last : Nat) :
    (span (fun c => code (f c)) lines first last).map f =
      span code (lines.map (List.map f)) first last := by
  rw [span, map_stripMarked, List.map_flatten, List.map_drop, List.map_take]
  rfl

theorem map_getSourceSegment (s : List α) (node : AstNode) :
    (getSourceSegment s node).map f = getSourceSegment (s.map f) node := by
  rw [getSourceSegment, List.map_drop, List.map_take]
  rfl

theorem map_nodeSegment (s : List α) (node : AstNode) :
    (nodeSegment (fun c => code (f c)) s node).map f = nodeSegment code (s.map f) node := by
  have hempty : (getSourceSegment (s.map f) node ≠ []) = (getSourceSegment s node ≠ []) := by
    rw [← map_getSourceSegment, Ne, List.map_eq_nil_iff]
  rw [nodeSegment, map_stripMarked, nodeSegment, linesKeep_map]
  simp only [hempty, apply_ite (List.map f), map_getSourceSegment, List.map_flatten,
    List.map_drop, List.map_take]

/-- The segments of the code points are the code points of the segments. -/
theorem map_segmentsFrom (s : List α) (prevEnd : Nat) (body : List AstNode) :
    (segmentsFrom (fun c => code (f c)) s prevEnd body).map (Prod.map (List.map f) id) =
      segmentsFrom code (s.map f) prevEnd body := by
  induction body generalizing prevEnd with
  | nil =>
      simp only [segmentsFrom, linesKeep_map, List.length_map, apply_ite (List.map _),
        List.map_singleton, List.map_nil, Prod.map_apply, map_span, id]
  | cons node body ih =>
      simp only [segmentsFrom, linesKeep_map, List.map_append, apply_ite (List.map _),
        List.map_singleton, List.map_nil, Prod.map_apply, map_span, map_nodeSegment, ih, id]

end Map

end Segments

section Chunks
variable (cfg : ChunkSettings)

/-- The segments of a module. -/
def pythonSegments (s : Text) (body : List AstNode) : List (Text × Option Text) :=
  segmentsFrom id s 0 body

/-- `_emit`. -/
def emit (segment : Text × Option Text) : List (Text × Option Text) :=
  if segment.1 ≠ [] then
    (if segment.1.length > cfg.maxChunkChars then chunkText cfg segment.1 else [segment.1]).map
      fun piece => (piece, segment.2)
  else []

/-- `chunk_python`, where `astParse` is the body of `ast.parse`'s tree, if it parses. -/
def chunkPython (astParse : Text → Option (List AstNode)) (s : Text) : List (Text × Option Text) :=
  match astParse s with
  | none => tagNone (chunkText cfg s)
  | some body =>
      let chunks := (pythonSegments s body).flatMap (emit cfg)
      if chunks ≠ [] then chunks else tagNone (chunkText cfg s)

end Chunks

/-- The line ends that `ast` counts, with the two of `\r\n` as one. -/
def isAstBreak (c : CodePoint) : Bool := c == 0x0a || c == 0x0d

/-- The line of a position as `ast` counts. -/
def astLine (s : Text) (i : Nat) : Nat := lineNumber id isAstBreak s i

/-- The line of a position in `str.splitlines`. -/
def splitLine (s : Text) (i : Nat) : Nat := lineNumber id isLineBreak s i

def AstNode.Spans (node : AstNode) (i : Nat) : Prop := node.start ≤ i ∧ i < node.stop

def AstNode.OnLine (node : AstNode) (line : Nat) : Prop :=
  node.lineno ≤ line ∧ line ≤ node.endLineno

instance (node : AstNode) (i : Nat) : Decidable (node.Spans i) :=
  inferInstanceAs (Decidable (_ ∧ _))

instance (node : AstNode) (line : Nat) : Decidable (node.OnLine line) :=
  inferInstanceAs (Decidable (_ ∧ _))

section Coverage
variable (s : Text) (body : List AstNode)

/-- The top-level statements of the text, in source order. -/
structure Parsed : Prop where
  ordered : body.Pairwise fun n m => n.stop ≤ m.start
  nonempty : ∀ n ∈ body, n.start < n.stop ∧ n.stop ≤ s.length
  lineno : ∀ n ∈ body, n.lineno = astLine s n.start
  endLineno : ∀ n ∈ body, n.endLineno = astLine s (n.stop - 1)

/-- A `;` after a statement, with nothing but whitespace and continuations in between. -/
def Separator (i : Fin s.length) : Prop :=
  s.get i = 0x3b ∧ ∃ n ∈ body, n.stop ≤ i.val ∧
    ∀ j : Fin s.length, n.stop ≤ j.val → j < i → isSpace (s.get j) = true ∨ s.get j = 0x5c

/-- A character that chunks owe to the search: neither whitespace nor the `;` of a
statement, nor on a line of an import. -/
def Required (i : Fin s.length) : Prop :=
  isSpace (s.get i) = false ∧ ¬ Separator s body i ∧
    ∀ n ∈ body, n.kind = .importing → ¬ n.OnLine (astLine s i)

instance : DecidablePred (Separator s body) := fun _ => inferInstanceAs (Decidable (_ ∧ _))

instance : DecidablePred (Required s body) := fun _ => inferInstanceAs (Decidable (_ ∧ _))

/-- The segments, by the positions of their characters in the text. -/
def placedSegments : List (List (Fin s.length) × Option Text) :=
  segmentsFrom s.get (List.finRange s.length) 0 body

/-- The placed segments are those of the module. -/
theorem map_placedSegments :
    (placedSegments s body).map (Prod.map (List.map s.get) id) = pythonSegments s body := by
  have hmap := map_segmentsFrom id s.get (List.finRange s.length) 0 body
  rwa [List.map_get_finRange] at hmap

/-- The name of the function or class that a position is in. -/
def defNameAt (i : Nat) : Option Text := (body.find? fun n => n.Spans i).bind AstNode.defName

/-- Every required character is in the segments exactly once, in source order, and with the
name of its function or class. -/
structure Covered : Prop where
  once : ((placedSegments s body).flatMap Prod.fst).filter (Required s body ·) =
    (List.finRange s.length).filter (Required s body ·)
  tagged : ∀ segment ∈ placedSegments s body, ∀ i ∈ segment.1, Required s body i →
    segment.2 = defNameAt body i

/-- Counted like `str.splitlines`, the required characters of statements are on lines where
`ast` has statements; the others are on none of these lines, and on the same side of a
statement as in the text. -/
structure LinesAgree : Prop where
  inside : ∀ i : Fin s.length, Required s body i → (∃ n ∈ body, n.Spans i) →
    ∃ n ∈ body, n.OnLine (splitLine s i)
  outside : ∀ i : Fin s.length, Required s body i → (∀ n ∈ body, ¬ n.Spans i) → ∀ n ∈ body,
    (splitLine s i < n.lineno ∧ ∀ j : Fin s.length, Required s body j → n.Spans j → i < j) ∨
    (n.endLineno < splitLine s i ∧ ∀ j : Fin s.length, Required s body j → n.Spans j → j < i)

end Coverage

section Placed
variable {s : Text} {body : List AstNode}

/-- A part of the positions that has the required ones among them with a property. -/
theorem filter_sublist {n : Nat} {p q : Fin n → Bool} {l : List (Fin n)}
    (hl : l.Sublist (List.finRange n)) (h : ∀ i, q i = true → (i ∈ l ↔ p i = true)) :
    l.filter q = ((List.finRange n).filter q).filter p := by
  have hsorted := List.pairwise_lt_finRange n
  apply ((hsorted.sublist hl).filter _).eq_of_mem_iff ((hsorted.filter _).filter _)
  intro i
  simp only [List.mem_filter, List.mem_finRange, true_and]
  constructor
  · exact fun hi => ⟨hi.2, (h i hi.2).mp hi.1⟩
  · exact fun hi => ⟨(h i hi.1).mpr hi.2, hi.1⟩

theorem getElem?_finRange {n i : Nat} {x : Fin n} :
    (List.finRange n)[i]? = some x ↔ i = x.val := by
  rw [List.getElem?_eq_some_iff]
  simp [Fin.ext_iff]
  omega

theorem lineNumber_finRange (isBreak : CodePoint → Bool) (i : Nat) :
    lineNumber s.get isBreak (List.finRange s.length) i = lineNumber id isBreak s i := by
  have hmap := lineNumber_map isBreak id s.get (List.finRange s.length) i
  rw [List.map_get_finRange] at hmap
  exact hmap.symm

/-- The positions on a range of lines. -/
theorem mem_linesKeep_finRange {a b : Nat} {i : Fin s.length} :
    i ∈ (((linesKeep s.get isLineBreak (List.finRange s.length)).take b).drop a).flatten ↔
      a < splitLine s i ∧ splitLine s i ≤ b := by
  simp only [mem_lines, getElem?_finRange, lineNumber_finRange, exists_eq_left, splitLine]

theorem splitLine_le (i : Fin s.length) :
    splitLine s i ≤ (linesKeep s.get isLineBreak (List.finRange s.length)).length := by
  have hmem : i ∈ (linesKeep s.get isLineBreak (List.finRange s.length)).flatten := by
    rw [flatten_linesKeep]
    exact List.mem_finRange i
  have hrange := mem_linesKeep_finRange (s := s) (a := 0)
    (b := (linesKeep s.get isLineBreak (List.finRange s.length)).length) (i := i)
  rw [List.take_length, List.drop_zero] at hrange
  exact (hrange.mp hmem).2

theorem sublist_lines (a b : Nat) :
    (((linesKeep s.get isLineBreak (List.finRange s.length)).take b).drop a).flatten.Sublist
      (List.finRange s.length) := by
  have hsub := ((List.drop_sublist a _).trans (List.take_sublist b
    (linesKeep s.get isLineBreak (List.finRange s.length)))).flatten
  rwa [flatten_linesKeep] at hsub

/-- The required characters of a range of lines. -/
theorem filter_span (a b : Nat) :
    (span s.get (linesKeep s.get isLineBreak (List.finRange s.length)) (a + 1) b).filter
        (Required s body ·) =
      ((List.finRange s.length).filter (Required s body ·)).filter
        fun i : Fin s.length => a < splitLine s i ∧ splitLine s i ≤ b := by
  apply filter_sublist
  · exact (stripMarked_sublist _ _).trans (sublist_lines a b)
  · intro i hi
    rw [span, mem_stripMarked _ (of_decide_eq_true hi).1, decide_eq_true_eq]
    exact mem_linesKeep_finRange

theorem mem_getSourceSegment {node : AstNode} {i : Fin s.length} :
    i ∈ getSourceSegment (List.finRange s.length) node ↔ node.Spans i := by
  rw [getSourceSegment, List.mem_iff_getElem?]
  simp only [List.getElem?_drop, List.getElem?_take, Option.ite_none_right_eq_some,
    getElem?_finRange]
  constructor
  · rintro ⟨k, hstop, hk⟩
    exact ⟨by omega, by omega⟩
  · rintro ⟨hstart, hstop⟩
    exact ⟨i.val - node.start, by omega, by omega⟩

/-- The required characters of a statement. -/
def ownRequired (s : Text) (body : List AstNode) (node : AstNode) : List (Fin s.length) :=
  ((List.finRange s.length).filter (Required s body ·)).filter
    fun i : Fin s.length => node.Spans i

/-- A statement's source text is not empty, so its lines are not asked for. -/
theorem nodeSegment_eq {node : AstNode} (h : node.start < node.stop ∧ node.stop ≤ s.length) :
    nodeSegment s.get (List.finRange s.length) node =
      stripMarked s.get (getSourceSegment (List.finRange s.length) node) := by
  have hsource : getSourceSegment (List.finRange s.length) node ≠ [] := by
    apply List.ne_nil_of_mem
    exact mem_getSourceSegment (i := ⟨node.start, by omega⟩).mpr ⟨le_rfl, h.1⟩
  rw [nodeSegment, if_pos hsource]

theorem filter_nodeSegment {node : AstNode} (h : node.start < node.stop ∧ node.stop ≤ s.length) :
    (nodeSegment s.get (List.finRange s.length) node).filter (Required s body ·) =
      ownRequired s body node := by
  rw [nodeSegment_eq h]
  apply filter_sublist
  · exact (stripMarked_sublist _ _).trans ((List.drop_sublist _ _).trans (List.take_sublist _ _))
  · intro i hi
    rw [mem_stripMarked _ (of_decide_eq_true hi).1, decide_eq_true_eq]
    exact mem_getSourceSegment

theorem Parsed.onLine (h : Parsed s body) {n : AstNode} (hn : n ∈ body) {i : Nat}
    (hi : n.Spans i) : n.OnLine (astLine s i) := by
  obtain ⟨hstart, hstop⟩ := hi
  constructor
  · rw [h.lineno n hn]
    exact lineNumber_mono id isAstBreak s hstart
  · rw [h.endLineno n hn]
    exact lineNumber_mono id isAstBreak s (by omega)

/-- Nothing is required of an import. -/
theorem Parsed.ownRequired_importing (h : Parsed s body) {n : AstNode} (hn : n ∈ body)
    (himport : n.kind = .importing) : ownRequired s body n = [] := by
  apply List.filter_eq_nil_iff.mpr
  intro i hi hspans
  have hrequired := of_decide_eq_true (List.mem_filter.mp hi).2
  exact hrequired.2.2 n hn himport (h.onLine hn (of_decide_eq_true hspans))

theorem Parsed.linesOrdered (h : Parsed s body) :
    LinesOrdered AstNode.lineno AstNode.endLineno 0 body := by
  apply linesOrdered_of_pairwise
  · intro n hn
    have hspan := (h.nonempty n hn).1
    have honline := h.onLine hn (i := n.start) ⟨le_rfl, hspan⟩
    exact ⟨Nat.zero_le _, honline.1.trans honline.2⟩
  · apply h.ordered.imp_of_mem
    intro n m hn hm hle
    have hnspan := (h.nonempty n hn).1
    rw [h.endLineno n hn, h.lineno m hm]
    exact lineNumber_mono id isAstBreak s (by omega)

/-- The required characters of a gap, if there is one. -/
theorem filter_gap (tag : Option Text) (a b : Nat) :
    ((if a < b then
        [(span s.get (linesKeep s.get isLineBreak (List.finRange s.length)) (a + 1) b, tag)]
      else []).flatMap Prod.fst).filter (Required s body ·) =
      ((List.finRange s.length).filter (Required s body ·)).filter
        fun i : Fin s.length => a < splitLine s i ∧ splitLine s i ≤ b := by
  split_ifs with hab
  · rw [List.flatMap_singleton, filter_span]
  · symm
    apply List.filter_eq_nil_iff.mpr
    intro i _ hi
    have hi := of_decide_eq_true hi
    omega

/-- The required characters of the segments are those of the statements and of the gaps. -/
theorem Parsed.filter_segmentsFrom (h : Parsed s body) (prevEnd : Nat) {rest : List AstNode}
    (hrest : rest ⊆ body) :
    ((segmentsFrom s.get (List.finRange s.length) prevEnd rest).flatMap Prod.fst).filter
        (Required s body ·) =
      interleave (fun i : Fin s.length => splitLine s i) AstNode.lineno AstNode.endLineno
        (ownRequired s body) ((List.finRange s.length).filter (Required s body ·)) prevEnd
        rest := by
  induction rest generalizing prevEnd with
  | nil =>
      rw [segmentsFrom, interleave, filter_gap]
      apply List.filter_congr
      intro i _
      simp [splitLine_le i]
  | cons n rest ih =>
      have hn : n ∈ body := hrest List.mem_cons_self
      have hown : ((if n.kind = .importing then []
          else [(nodeSegment s.get (List.finRange s.length) n, n.defName)]).flatMap
            Prod.fst).filter (Required s body ·) = ownRequired s body n := by
        split_ifs with himport
        · exact (h.ownRequired_importing hn himport).symm
        · rw [List.flatMap_singleton, filter_nodeSegment (h.nonempty n hn)]
      have hgap : (n.lineno > prevEnd + 1) = (prevEnd < n.lineno - 1) := by
        apply propext
        omega
      have hline : 0 < n.lineno := by
        rw [h.lineno n hn]
        exact lineNumber_pos ..
      rw [segmentsFrom, interleave]
      simp only [List.flatMap_append, List.filter_append, hown, hgap, filter_gap,
        ih n.endLineno (fun m hm => hrest (List.mem_cons_of_mem n hm))]
      congr 2
      apply List.filter_congr
      intro i _
      apply decide_eq_decide.mpr
      omega

theorem mem_ownRequired {n : AstNode} {i : Fin s.length} :
    i ∈ ownRequired s body n ↔ Required s body i ∧ n.Spans i := by
  simp [ownRequired, List.mem_filter, and_comm]

theorem linesAgree_iff : LinesAgree s body ↔
    LinesFit (fun i : Fin s.length => splitLine s i) AstNode.lineno AstNode.endLineno
      (ownRequired s body) ((List.finRange s.length).filter (Required s body ·)) body := by
  have hall : ∀ i, i ∈ (List.finRange s.length).filter (Required s body ·) ↔
      Required s body i := by simp
  constructor
  · intro h
    constructor
    · intro i hi howned
      apply h.inside i ((hall i).mp hi)
      exact howned.imp fun n hn => ⟨hn.1, (mem_ownRequired.mp hn.2).2⟩
    · intro i hi hfree n hn
      have hi := (hall i).mp hi
      have hbeside := h.outside i hi
        (fun m hm hspans => hfree m hm (mem_ownRequired.mpr ⟨hi, hspans⟩)) n hn
      simpa only [Beside, mem_ownRequired, and_imp] using hbeside
  · intro h
    constructor
    · intro i hi howned
      apply h.inside i ((hall i).mpr hi)
      exact howned.imp fun n hn => ⟨hn.1, mem_ownRequired.mpr ⟨hi, hn.2⟩⟩
    · intro i hi hfree n hn
      have hbeside := h.outside i ((hall i).mpr hi)
        (fun m hm hown => hfree m hm (mem_ownRequired.mp hown).2) n hn
      simpa only [Beside, mem_ownRequired, and_imp] using hbeside

/-- Everything that is required is there once and in order exactly when the lines agree. -/
theorem Parsed.once_iff (h : Parsed s body) :
    ((placedSegments s body).flatMap Prod.fst).filter (Required s body ·) =
      (List.finRange s.length).filter (Required s body ·) ↔ LinesAgree s body := by
  have hsorted := (List.pairwise_lt_finRange s.length).filter (Required s body ·)
  rw [placedSegments, h.filter_segmentsFrom 0 (List.Subset.refl body), linesAgree_iff]
  apply interleave_eq_iff h.linesOrdered _ hsorted
  · intro i _ j _ hlt
    exact lt_of_not_ge fun hle => hlt.not_ge (lineNumber_mono id isLineBreak s hle)
  · intro n _
    exact hsorted.filter _
  · intro n _
    exact List.filter_subset_self _
  · apply h.ordered.imp
    intro n m hle i hi j hj
    have hi := (mem_ownRequired.mp hi).2
    have hj := (mem_ownRequired.mp hj).2
    calc i.val < n.stop := hi.2
      _ ≤ m.start := hle
      _ ≤ j.val := hj.1
  · intro i _
    exact lineNumber_pos ..

theorem mem_span {a b : Nat} {i : Fin s.length}
    (hi : i ∈ span s.get (linesKeep s.get isLineBreak (List.finRange s.length)) (a + 1) b) :
    a < splitLine s i ∧ splitLine s i ≤ b :=
  mem_linesKeep_finRange.mp ((stripMarked_sublist _ _).subset hi)

/-- A segment is from a statement and has its name, or it is from a gap. -/
theorem Parsed.tag_segmentsFrom (h : Parsed s body) {prevEnd : Nat} {rest : List AstNode}
    (hrest : rest ⊆ body) (hlines : LinesOrdered AstNode.lineno AstNode.endLineno prevEnd rest)
    {segment : List (Fin s.length) × Option Text}
    (hsegment : segment ∈ segmentsFrom s.get (List.finRange s.length) prevEnd rest)
    {i : Fin s.length} (hi : i ∈ segment.1) :
    (∃ n ∈ rest, n.Spans i ∧ segment.2 = n.defName) ∨
      (segment.2 = none ∧ prevEnd < splitLine s i ∧ ∀ n ∈ rest, ¬ n.OnLine (splitLine s i)) := by
  induction rest generalizing prevEnd with
  | nil =>
      simp only [segmentsFrom, List.mem_ite_nil_right, List.mem_singleton] at hsegment
      obtain ⟨-, rfl⟩ := hsegment
      exact Or.inr ⟨rfl, (mem_span hi).1, by simp⟩
  | cons n rest ih =>
      have hn : n ∈ body := hrest List.mem_cons_self
      have hafter := fun m hm => hlines.2.2.le_first (n := m) hm
      simp only [segmentsFrom, List.mem_append, List.mem_ite_nil_right, List.mem_ite_nil_left,
        List.mem_singleton] at hsegment
      obtain (⟨hgap, rfl⟩ | ⟨-, rfl⟩) | hsegment := hsegment
      · have hline := mem_span hi
        refine Or.inr ⟨rfl, hline.1, List.forall_mem_cons.mpr ⟨fun hon => ?_, fun m hm hon => ?_⟩⟩
        · have hfirst := hon.1
          omega
        · have hlater := hafter m hm
          have hfirst := hon.1
          have hle := hlines.2.1
          omega
      · refine Or.inl ⟨n, List.mem_cons_self, ?_, rfl⟩
        rw [nodeSegment_eq (h.nonempty n hn)] at hi
        exact mem_getSourceSegment.mp ((stripMarked_sublist _ _).subset hi)
      · rcases ih (fun m hm => hrest (List.mem_cons_of_mem n hm)) hlines.2.2 hsegment with
          ⟨m, hm, hspans⟩ | ⟨htag, hline, hoff⟩
        · exact Or.inl ⟨m, List.mem_cons_of_mem n hm, hspans⟩
        · have hfirst := hlines.1
          have hlast := hlines.2.1
          refine Or.inr ⟨htag, by omega, List.forall_mem_cons.mpr ⟨fun hon => ?_, hoff⟩⟩
          have hle := hon.2
          omega

/-- A position is in one statement at most. -/
theorem Parsed.defNameAt_eq (h : Parsed s body) {n : AstNode} (hn : n ∈ body) {i : Nat}
    (hi : n.Spans i) : defNameAt body i = n.defName := by
  have hfound : (body.find? fun n => n.Spans i).isSome = true :=
    List.find?_isSome.mpr ⟨n, hn, by simpa using hi⟩
  obtain ⟨m, hm⟩ := Option.isSome_iff_exists.mp hfound
  have hmspans : m.Spans i := by simpa using List.find?_some hm
  have hapart : body.Pairwise fun n m => n.Spans i → m.Spans i → n = m := by
    apply h.ordered.imp
    intro n m hle hn hm
    have hself : i < i := by
      calc i < n.stop := hn.2
        _ ≤ m.start := hle
        _ ≤ i := hm.1
    exact absurd hself (lt_irrefl i)
  have hsymm : Std.Symm fun n m : AstNode => n.Spans i → m.Spans i → n = m :=
    ⟨fun n m heq hm hn => (heq hn hm).symm⟩
  have hsame : m = n :=
    hapart.forall_of_forall (fun _ _ _ _ => rfl) (List.mem_of_find?_eq_some hm) hn hmspans hi
  rw [defNameAt, hm, hsame]
  rfl

theorem defNameAt_eq_none {i : Nat} (hi : ∀ n ∈ body, ¬ n.Spans i) : defNameAt body i = none := by
  rw [defNameAt, List.find?_eq_none.mpr (by simpa using hi)]
  rfl

end Placed

/-- Without other line ends than those that `ast` counts, the lines agree if nothing that is
required is outside the statements on a line of one. -/
theorem Parsed.linesAgree_iff_of_breaks {s : Text} {body : List AstNode} (h : Parsed s body)
    (hbreaks : ∀ c ∈ s, isLineBreak c = isAstBreak c) :
    LinesAgree s body ↔ ∀ i : Fin s.length, Required s body i → (∀ n ∈ body, ¬ n.Spans i) →
      ∀ n ∈ body, ¬ n.OnLine (astLine s i) := by
  have hline : ∀ i, splitLine s i = astLine s i := lineNumber_congr id hbreaks
  constructor
  · intro hagree i hi hfree n hn hon
    have hbeside := hagree.outside i hi hfree n hn
    rw [hline] at hbeside
    obtain ⟨hlt, -⟩ | ⟨hlt, -⟩ := hbeside
    · exact absurd hlt (Nat.not_lt.mpr hon.1)
    · exact absurd hlt (Nat.not_lt.mpr hon.2)
  · intro hoff
    constructor
    · rintro i - ⟨n, hn, hspans⟩
      rw [hline]
      exact ⟨n, hn, h.onLine hn hspans⟩
    · intro i hi hfree n hn
      have hline' : astLine s i < n.lineno ∨ n.endLineno < astLine s i := by
        have hnot := hoff i hi hfree n hn
        rw [AstNode.OnLine] at hnot
        omega
      rw [hline]
      apply hline'.imp
      · intro hlt
        refine ⟨hlt, fun j _ hj => lt_of_not_ge fun hle => ?_⟩
        have hmono := lineNumber_mono id isAstBreak s (hj.1.trans hle)
        have hlineno := h.lineno n hn
        rw [astLine] at hlineno hlt
        omega
      · intro hlt
        refine ⟨hlt, fun j _ hj => lt_of_not_ge fun hle => ?_⟩
        have hstop := hj.2
        have hlast : i.val ≤ n.stop - 1 := by omega
        have hmono := lineNumber_mono id isAstBreak s hlast
        have hend := h.endLineno n hn
        rw [astLine] at hend hlt
        omega

/-- A Python module is covered exactly when the lines of `str.splitlines` agree with those
of `ast` on what is required. -/
theorem covered_iff_linesAgree (s : Text) (body : List AstNode) (h : Parsed s body) :
    Covered s body ↔ LinesAgree s body := by
  constructor
  · exact fun hcovered => h.once_iff.mp hcovered.once
  · intro hagree
    refine ⟨h.once_iff.mpr hagree, ?_⟩
    intro segment hsegment i hi hrequired
    rcases h.tag_segmentsFrom (List.Subset.refl body) h.linesOrdered hsegment hi with
      ⟨n, hn, hspans, htag⟩ | ⟨htag, -, hoff⟩
    · rw [htag, h.defNameAt_eq hn hspans]
    · rw [htag, defNameAt_eq_none]
      intro n hn hspans
      obtain ⟨m, hm, hon⟩ := hagree.inside i hrequired ⟨n, hn, hspans⟩
      exact hoff m hm hon

theorem covered_iff_linesAgree_sample :
    Covered (text "import os\n# c\nx = 1; y = 2\ndef f():\n  pass\n")
      [⟨.importing, 1, 1, 0, 9⟩, ⟨.other, 3, 3, 14, 19⟩, ⟨.other, 3, 3, 21, 26⟩,
        ⟨.definition (text "f"), 4, 5, 27, 42⟩] := by
  apply (covered_iff_linesAgree _ _ ?_).mpr
  · constructor <;> decide +kernel
  · constructor <;> decide +kernel

/-- A comment after a statement is in no segment, and after a form feed the last line is in
two. -/
theorem comment_lost_and_line_doubled :
    (Parsed (text "x = 1  # c\n") [⟨.other, 1, 1, 0, 5⟩] ∧
      ¬ Covered (text "x = 1  # c\n") [⟨.other, 1, 1, 0, 5⟩]) ∧
    (Parsed (text "x = 1\n\x0cy = 2\n") [⟨.other, 1, 1, 0, 5⟩, ⟨.other, 2, 2, 7, 12⟩] ∧
      ¬ Covered (text "x = 1\n\x0cy = 2\n")
        [⟨.other, 1, 1, 0, 5⟩, ⟨.other, 2, 2, 7, 12⟩]) := by
  refine ⟨⟨?_, fun h => ?_⟩, ?_, fun h => ?_⟩
  · constructor <;> decide +kernel
  · exact absurd h.once (by decide +kernel)
  · constructor <;> decide +kernel
  · exact absurd h.once (by decide +kernel)

end LocalGraphRag.Ingest
