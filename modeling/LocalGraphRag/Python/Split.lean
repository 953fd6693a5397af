import LocalGraphRag.Python.Text
import Mathlib.Algebra.GroupWithZero.Nat
import Mathlib.Data.List.Induction

/-!
# Splitting texts

`str.split`, `str.splitlines` and `str.join` move no text: what they take away or put in
are separators. `nonSpace` is what is left of a text without its whitespace.

## Implementation notes

Lines are those of a list of anything that has a code point, so that a text can carry
marks through the functions that cut it.
-/

namespace LocalGraphRag.Python

/-- The text without its whitespace. -/
def nonSpace (s : Text) : Text := s.filter fun c => !isSpace c

@[simp] theorem nonSpace_nil : nonSpace [] = [] := rfl

@[simp] theorem nonSpace_append (s t : Text) : nonSpace (s ++ t) = nonSpace s ++ nonSpace t :=
  List.filter_append ..

theorem nonSpace_flatten (parts : List Text) :
    nonSpace parts.flatten = (parts.map nonSpace).flatten := List.filter_flatten

theorem nonSpace_concat (parts : List Text) (part : Text) :
    ((parts ++ [part]).map nonSpace).flatten = (parts.map nonSpace).flatten ++ nonSpace part := by
  rw [List.map_append, List.flatten_append, List.map_singleton, List.flatten_singleton]

/-- Leaving out texts of whitespace leaves nothing out. -/
theorem flatten_map_nonSpace_filter {p : Text → Bool} (hp : ∀ s, p s = false → nonSpace s = [])
    (parts : List Text) :
    ((parts.filter p).map nonSpace).flatten = (parts.map nonSpace).flatten := by
  induction parts with
  | nil => rfl
  | cons part parts ih =>
      cases hpart : p part with
      | false =>
          rw [List.filter_cons_of_neg (by simp [hpart]), ih, List.map_cons, List.flatten_cons,
            hp part hpart, List.nil_append]
      | true =>
          rw [List.filter_cons_of_pos hpart, List.map_cons, List.flatten_cons, ih, List.map_cons,
            List.flatten_cons]

theorem nonSpace_eq_nil {s : Text} (h : ∀ c ∈ s, isSpace c = true) : nonSpace s = [] := by
  apply List.filter_eq_nil_iff.mpr
  intro c hc
  simp [h c hc]

theorem mem_dropWhile {α : Type} {p : α → Bool} {c : α} (hp : p c = false) {s : List α} :
    c ∈ s.dropWhile p ↔ c ∈ s := by
  constructor
  · exact fun h => (List.dropWhile_sublist p).subset h
  · intro h
    rw [← List.takeWhile_append_dropWhile (p := p) (l := s)] at h
    obtain htake | hdrop := List.mem_append.mp h
    · exact absurd (List.mem_takeWhile_imp htake) (by simp [hp])
    · exact hdrop

theorem stripWhile_eq_nil {p : CodePoint → Bool} {s : Text} (h : stripWhile p s = []) :
    ∀ c ∈ s, p c = true := by
  intro c hc
  by_contra hp
  have hall := List.rdropWhile_eq_nil_iff.mp h
  exact hp (hall c ((mem_dropWhile (by simpa using hp)).mpr hc))

theorem stripWhile_eq_nil_iff {p : CodePoint → Bool} {s : Text} :
    stripWhile p s = [] ↔ ∀ c ∈ s, p c = true := by
  refine ⟨stripWhile_eq_nil, fun h => ?_⟩
  rw [stripWhile, List.dropWhile_eq_nil_iff.mpr h]
  rfl

theorem nonSpace_dropWhile (s : Text) : nonSpace (s.dropWhile isSpace) = nonSpace s := by
  have htake : nonSpace (s.takeWhile isSpace) = [] :=
    nonSpace_eq_nil fun _ => List.mem_takeWhile_imp
  calc
    nonSpace (s.dropWhile isSpace) =
        nonSpace (s.takeWhile isSpace) ++ nonSpace (s.dropWhile isSpace) := by
      rw [htake, List.nil_append]
    _ = nonSpace s := by rw [← nonSpace_append, List.takeWhile_append_dropWhile]

/-- Code points taken away at the end do not count if they are whitespace. -/
theorem nonSpace_rdropWhile {p : CodePoint → Bool} (hp : ∀ c, p c = true → isSpace c = true)
    (s : Text) : nonSpace (s.rdropWhile p) = nonSpace s := by
  induction s using List.reverseRecOn with
  | nil => simp
  | append_singleton s c ih =>
      rw [List.rdropWhile_concat]
      split_ifs with hc
      · rw [ih, nonSpace_append, nonSpace_eq_nil (s := [c]) (by simpa using hp c hc),
          List.append_nil]
      · rfl

@[simp] theorem nonSpace_strip (s : Text) : nonSpace (strip s) = nonSpace s := by
  rw [strip, stripWhile, nonSpace_rdropWhile fun _ h => h, nonSpace_dropWhile]

section Split

/-- `str.split(sep)` for a nonempty separator; `skip` code points of a match are still to
be dropped. -/
def splitFrom (sep : Text) : Nat → Text → List Text
  | _, [] => [[]]
  | skip + 1, _ :: s => splitFrom sep skip s
  | 0, c :: s =>
      if sep.isPrefixOf (c :: s) then [] :: splitFrom sep (sep.length - 1) s
      else (splitFrom sep 0 s).modifyHead (c :: ·)

def split (sep s : Text) : List Text := splitFrom sep 0 s

theorem join_cons (sep part : Text) {parts : List Text} (h : parts ≠ []) :
    join sep (part :: parts) = part ++ sep ++ join sep parts := by
  cases parts with
  | nil => exact absurd rfl h
  | cons p parts => simp [join, List.intercalate, List.intersperse]

@[simp] theorem join_nil (sep : Text) : join sep [] = [] := rfl

@[simp] theorem join_singleton (sep part : Text) : join sep [part] = part := by
  simp [join, List.intercalate]

theorem splitFrom_ne_nil (sep : Text) (skip : Nat) (s : Text) : splitFrom sep skip s ≠ [] := by
  induction s generalizing skip with
  | nil => simp [splitFrom]
  | cons c s ih =>
      cases skip with
      | succ skip => exact ih skip
      | zero =>
          rw [splitFrom]
          split_ifs
          · exact List.cons_ne_nil _ _
          · intro h
            exact ih 0 (by simpa using h)

theorem join_modifyHead (sep : Text) (c : CodePoint) {parts : List Text} (h : parts ≠ []) :
    join sep (parts.modifyHead (c :: ·)) = c :: join sep parts := by
  cases parts with
  | nil => exact absurd rfl h
  | cons p parts =>
      by_cases hparts : parts = []
      · simp [hparts]
      · rw [List.modifyHead_cons, join_cons _ _ hparts, join_cons _ _ hparts]
        rfl

/-- Joining the parts of a split gives the text back. -/
theorem join_splitFrom {sep : Text} (hsep : sep ≠ []) (skip : Nat) (s : Text) :
    join sep (splitFrom sep skip s) = s.drop skip := by
  induction s generalizing skip with
  | nil => simp [splitFrom]
  | cons c s ih =>
      cases skip with
      | succ skip => exact ih skip
      | zero =>
          rw [splitFrom]
          split_ifs with hstarts
          · rw [join_cons _ _ (splitFrom_ne_nil sep _ s), ih, List.nil_append, List.drop_zero]
            obtain ⟨rest, hrest⟩ := List.isPrefixOf_iff_prefix.mp hstarts
            cases sep with
            | nil => exact absurd rfl hsep
            | cons d sep =>
                cases hrest
                simp
          · rw [join_modifyHead _ _ (splitFrom_ne_nil sep _ s), ih]
            rfl

theorem join_split {sep : Text} (hsep : sep ≠ []) (s : Text) : join sep (split sep s) = s :=
  join_splitFrom hsep 0 s

theorem length_join_cons (sep part : Text) (parts : List Text) :
    (join sep (part :: parts)).length =
      part.length + (if parts ≠ [] then sep.length else 0) + (join sep parts).length := by
  by_cases hparts : parts = []
  · simp [hparts]
  · rw [join_cons _ _ hparts, if_pos hparts, List.length_append, List.length_append]

theorem join_concat (sep part : Text) {parts : List Text} (h : parts ≠ []) :
    join sep (parts ++ [part]) = join sep parts ++ sep ++ part := by
  induction parts with
  | nil => exact absurd rfl h
  | cons p parts ih =>
      by_cases hparts : parts = []
      · simp [hparts, join_cons]
      · rw [List.cons_append, join_cons _ _ (by simp), ih hparts, join_cons _ _ hparts]
        simp only [List.append_assoc]

theorem length_join_concat (sep part : Text) (parts : List Text) :
    (join sep (parts ++ [part])).length = (join sep parts).length +
      (part.length + if 1 < (parts ++ [part]).length then sep.length else 0) := by
  by_cases hparts : parts = []
  · simp [hparts]
  · have hpos := List.length_pos_iff.mpr hparts
    have hmore : 1 < (parts ++ [part]).length := by
      rw [List.length_append, List.length_singleton]
      omega
    rw [if_pos hmore, join_concat _ _ hparts, List.length_append, List.length_append]
    omega

/-- A joined text is as long as its parts and the separators between them. -/
theorem length_join (sep : Text) (parts : List Text) :
    (join sep parts).length =
      (parts.map List.length).sum + sep.length * (parts.length - 1) := by
  induction parts with
  | nil => simp
  | cons part parts ih =>
      rw [length_join_cons, ih, List.map_cons, List.sum_cons, List.length_cons]
      split_ifs with hparts
      · have hpos := List.length_pos_iff.mpr hparts
        obtain ⟨n, hn⟩ := Nat.exists_eq_add_of_lt hpos
        rw [hn]
        simp only [Nat.zero_add, Nat.add_sub_cancel]
        rw [Nat.mul_succ]
        omega
      · rw [not_not.mp hparts]
        simp

theorem join_suffix_cons (sep part : Text) (parts : List Text) :
    join sep parts <:+ join sep (part :: parts) := by
  by_cases hparts : parts = []
  · simp [hparts]
  · rw [join_cons _ _ hparts]
    exact List.suffix_append ..

/-- A separator of whitespace does not count. -/
theorem nonSpace_join {sep : Text} (hsep : nonSpace sep = []) (parts : List Text) :
    nonSpace (join sep parts) = (parts.map nonSpace).flatten := by
  induction parts with
  | nil => rfl
  | cons p parts ih =>
      by_cases hparts : parts = []
      · simp [hparts]
      · rw [join_cons _ _ hparts, nonSpace_append, nonSpace_append, hsep, List.append_nil, ih]
        rfl

/-- The first parts of a join, and what comes after them. -/
theorem exists_join_append {sep : Text} (hsep : nonSpace sep = []) (parts parts' : List Text) :
    ∃ rest, join sep (parts ++ parts') = join sep parts ++ rest ∧
      nonSpace rest = (parts'.map nonSpace).flatten := by
  induction parts with
  | nil => exact ⟨join sep parts', rfl, nonSpace_join hsep parts'⟩
  | cons p parts ih =>
      by_cases hparts : parts = []
      · by_cases hparts' : parts' = []
        · exact ⟨[], by simp [hparts, hparts'], by simp [hparts']⟩
        · refine ⟨sep ++ join sep parts', ?_, ?_⟩
          · rw [hparts, List.singleton_append, join_cons _ _ hparts', join_singleton,
              List.append_assoc]
          · rw [nonSpace_append, hsep, List.nil_append, nonSpace_join hsep]
      · obtain ⟨rest, hrest, hcount⟩ := ih
        refine ⟨rest, ?_, hcount⟩
        rw [List.cons_append, join_cons _ _ (by simp [hparts]), hrest, join_cons _ _ hparts]
        simp only [List.append_assoc]

end Split

section Lines
variable {α : Type} (code : α → CodePoint) (isBreak : CodePoint → Bool)

/-- The element ends its line; the two of `\r\n` end it together. -/
def endsLine (c : α) (rest : List α) : Bool :=
  isBreak (code c) && !(code c == 0x0d && rest.head?.any fun d => code d == 0x0a)

/-- The lines, each with its end. -/
def linesKeep : List α → List (List α)
  | [] => []
  | c :: s =>
      if endsLine code isBreak c s then [c] :: linesKeep s
      else match linesKeep s with
        | [] => [[c]]
        | l :: lines => (c :: l) :: lines

theorem flatten_linesKeep (s : List α) : (linesKeep code isBreak s).flatten = s := by
  induction s with
  | nil => rfl
  | cons c s ih =>
      rw [linesKeep]
      split_ifs
      · rw [List.flatten_cons, ih]
        rfl
      · split
        · rename_i hnil
          rw [hnil] at ih
          rw [← ih]
          rfl
        · rename_i l lines hlines
          rw [hlines] at ih
          rw [List.flatten_cons, List.cons_append, ← List.flatten_cons, ih]

end Lines

/-- The line ends of `str.splitlines`. -/
def isLineBreak (c : CodePoint) : Bool :=
  (0x0a ≤ c.val && c.val ≤ 0x0d) || (0x1c ≤ c.val && c.val ≤ 0x1e) || c.val == 0x85 ||
    c.val == 0x2028 || c.val == 0x2029

theorem isSpace_of_isLineBreak {c : CodePoint} (h : isLineBreak c = true) : isSpace c = true := by
  simp only [isLineBreak, isSpace, Bool.or_eq_true, Bool.and_eq_true, decide_eq_true_eq,
    beq_iff_eq] at h ⊢
  omega

/-- `str.splitlines(keepends=True)`. -/
def splitlinesKeep (s : Text) : List Text := linesKeep id isLineBreak s

/-- `str.splitlines()`. -/
def splitlines (s : Text) : List Text :=
  (splitlinesKeep s).map fun line => line.rdropWhile isLineBreak

theorem nonSpace_splitlines (s : Text) :
    ((splitlines s).map nonSpace).flatten = nonSpace s := by
  have hlines : (splitlines s).map nonSpace = (splitlinesKeep s).map nonSpace := by
    rw [splitlines, List.map_map]
    apply List.map_congr_left
    intro line _
    exact nonSpace_rdropWhile (fun _ => isSpace_of_isLineBreak) line
  calc
    _ = ((splitlinesKeep s).map nonSpace).flatten := by rw [hlines]
    _ = nonSpace (splitlinesKeep s).flatten := (nonSpace_flatten _).symm
    _ = nonSpace s := by rw [splitlinesKeep, flatten_linesKeep]

section Splitlines
variable {s t : Text} {c : CodePoint}

theorem linesKeep_of_endsLine (h : endsLine id isLineBreak c s = true) :
    linesKeep id isLineBreak (c :: s) = [c] :: linesKeep id isLineBreak s := by
  rw [linesKeep, if_pos h]

theorem linesKeep_of_not_endsLine {line : Text} {lines : List Text}
    (h : ¬endsLine id isLineBreak c s = true)
    (hs : linesKeep id isLineBreak s = line :: lines) :
    linesKeep id isLineBreak (c :: s) = (c :: line) :: lines := by
  rw [linesKeep, if_neg h, hs]

theorem linesKeep_ne_nil (hs : s ≠ []) : linesKeep id isLineBreak s ≠ [] := by
  intro hnil
  have hflat := flatten_linesKeep id isLineBreak s
  rw [hnil] at hflat
  exact hs hflat.symm

theorem endsLine_newline (s : Text) : endsLine id isLineBreak 0x0a s = true := by
  simp [endsLine, isLineBreak]

/-- A newline ends its line, whatever comes after it. -/
theorem linesKeep_append_newline (s t : Text) : linesKeep id isLineBreak (s ++ 0x0a :: t) =
    linesKeep id isLineBreak (s ++ [0x0a]) ++ linesKeep id isLineBreak t := by
  induction s with
  | nil =>
      rw [List.nil_append, List.nil_append, linesKeep_of_endsLine (endsLine_newline t),
        linesKeep_of_endsLine (endsLine_newline [])]
      rfl
  | cons c s ih =>
      have hhead : (s ++ 0x0a :: t).head? = (s ++ [0x0a]).head? := by
        cases s <;> rfl
      have hends : endsLine id isLineBreak c (s ++ 0x0a :: t) =
          endsLine id isLineBreak c (s ++ [0x0a]) := by
        rw [endsLine, endsLine, hhead]
      by_cases hc : endsLine id isLineBreak c (s ++ [0x0a]) = true
      · rw [List.cons_append, List.cons_append, linesKeep_of_endsLine (hends ▸ hc),
          linesKeep_of_endsLine hc, ih]
        rfl
      · obtain ⟨line, lines, hlines⟩ := List.exists_cons_of_ne_nil
          (linesKeep_ne_nil (s := s ++ [0x0a]) (List.concat_ne_nil _ _))
        rw [hlines] at ih
        rw [List.cons_append, List.cons_append, linesKeep_of_not_endsLine (hends ▸ hc) ih,
          linesKeep_of_not_endsLine hc hlines]
        rfl

theorem splitlines_append_newline (s t : Text) :
    splitlines (s ++ 0x0a :: t) = splitlines (s ++ [0x0a]) ++ splitlines t := by
  rw [splitlines, splitlinesKeep, linesKeep_append_newline, List.map_append]
  rfl

/-- A kept line is a text without line breaks, and the line breaks after it. -/
def IsLine (line : Text) : Prop :=
  ∃ body ending, line = body ++ ending ∧ (∀ c ∈ body, isLineBreak c = false) ∧
    ∀ c ∈ ending, isLineBreak c = true

/-- A line break that does not end its line is followed by a newline, which does. -/
theorem isLine_cons {line : Text} {lines : List Text} (h : ¬endsLine id isLineBreak c s = true)
    (hs : linesKeep id isLineBreak s = line :: lines) (hline : IsLine line) :
    IsLine (c :: line) := by
  obtain ⟨body, ending, rfl, hbody, hending⟩ := hline
  cases hc : isLineBreak c with
  | false => exact ⟨c :: body, ending, rfl, List.forall_mem_cons.mpr ⟨hc, hbody⟩, hending⟩
  | true =>
      cases s with
      | nil => exact absurd hs (by simp [linesKeep])
      | cons d s =>
          have hd : d = 0x0a := by
            simp only [endsLine, id_eq, hc, Bool.true_and, Bool.not_eq_true',
              Bool.not_eq_false, Bool.and_eq_true, List.head?_cons, Option.any_some,
              beq_iff_eq] at h
            exact h.2
          rw [hd, linesKeep_of_endsLine (endsLine_newline s), List.cons_eq_cons] at hs
          rw [← hs.1]
          have hnewline : isLineBreak 0x0a = true := by decide
          exact ⟨[], [c, 0x0a], rfl, by simp, by simp [hc, hnewline]⟩

theorem isLine_of_mem_linesKeep : ∀ line ∈ linesKeep id isLineBreak s, IsLine line := by
  induction s with
  | nil => simp [linesKeep]
  | cons c s ih =>
      by_cases hc : endsLine id isLineBreak c s = true
      · rw [linesKeep_of_endsLine hc]
        refine List.forall_mem_cons.mpr ⟨⟨[], [c], rfl, by simp, ?_⟩, ih⟩
        rw [endsLine, Bool.and_eq_true] at hc
        simpa using hc.1
      · by_cases hs : s = []
        · subst hs
          have hbreak : isLineBreak c = false := by simpa [endsLine] using hc
          rw [linesKeep, if_neg hc]
          simpa [linesKeep] using ⟨[c], [], rfl, by simpa using hbreak, by simp⟩
        · obtain ⟨line, lines, hlines⟩ := List.exists_cons_of_ne_nil (linesKeep_ne_nil hs)
          rw [linesKeep_of_not_endsLine hc hlines]
          rw [hlines, List.forall_mem_cons] at ih
          exact List.forall_mem_cons.mpr ⟨isLine_cons hc hlines ih.1, ih.2⟩

theorem rdropWhile_line {body ending : Text} (hbody : ∀ c ∈ body, isLineBreak c = false)
    (hending : ∀ c ∈ ending, isLineBreak c = true) :
    (body ++ ending).rdropWhile isLineBreak = body := by
  rw [List.rdropWhile, List.reverse_append, List.dropWhile_append_of_pos (by simpa using hending)]
  have hself : body.reverse.dropWhile isLineBreak = body.reverse := by
    rw [List.dropWhile_eq_self_iff]
    intro hpos
    simpa using hbody _ (List.mem_reverse.mp (List.getElem_mem hpos))
  rw [hself, List.reverse_reverse]

/-- A line holds no line break. -/
theorem not_isLineBreak_of_mem_splitlines {line : Text} (h : line ∈ splitlines s) :
    ∀ c ∈ line, isLineBreak c = false := by
  obtain ⟨kept, hkept, rfl⟩ := List.mem_map.mp h
  obtain ⟨body, ending, rfl, hbody, hending⟩ := isLine_of_mem_linesKeep kept hkept
  rw [rdropWhile_line hbody hending]
  exact hbody

theorem splitlines_line {line : Text} (h : ∀ c ∈ line, isLineBreak c = false) :
    splitlines (line ++ [0x0a]) = [line] := by
  have hkeep : linesKeep id isLineBreak (line ++ [0x0a]) = [line ++ [0x0a]] := by
    induction line with
    | nil => exact linesKeep_of_endsLine (endsLine_newline [])
    | cons c line ih =>
        obtain ⟨hc, hline⟩ := List.forall_mem_cons.mp h
        have hends : ¬endsLine id isLineBreak c (line ++ [0x0a]) = true := by
          simp [endsLine, hc]
        exact linesKeep_of_not_endsLine hends (ih hline)
  rw [splitlines, splitlinesKeep, hkeep, List.map_singleton,
    rdropWhile_line h (by simp [isLineBreak])]

/-- Lines that are each ended by a newline. -/
theorem splitlines_flatMap_newline {lines : List Text}
    (h : ∀ line ∈ lines, ∀ c ∈ line, isLineBreak c = false) :
    splitlines (lines.flatMap (· ++ [0x0a])) = lines := by
  induction lines with
  | nil => rfl
  | cons line lines ih =>
      obtain ⟨hline, hlines⟩ := List.forall_mem_cons.mp h
      rw [List.flatMap_cons, List.append_assoc, List.singleton_append, splitlines_append_newline,
        splitlines_line hline, ih hlines]
      rfl

end Splitlines

end LocalGraphRag.Python
