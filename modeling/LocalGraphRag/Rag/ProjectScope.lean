import LocalGraphRag.Graph.Records
import LocalGraphRag.Python.Split
import LocalGraphRag.Sequences.MaximalRuns
import LocalGraphRag.Sequences.Patterns
import Mathlib.Data.Finset.Sort
import Mathlib.Order.Interval.Finset.Nat

/-!
# The projects that a question names

A project is recognised by the words of its directory name: written as an identifier they
always count, otherwise only beside a cue word.

## Implementation notes

The dictionaries of names and of phrases are sets here, as the result is sorted and reads
them in no order.
-/

namespace LocalGraphRag.Rag

open LocalGraphRag.Python LocalGraphRag.Sequences
open LocalGraphRag.Graph (isSlugChar)

/-- `str.lower`. The case of a letter depends on what stands beside it, but not across
whitespace, which is kept. -/
structure Lowering where
  lower : Text → Text
  lower_space : ∀ s c t, isSpace c = true → lower (s ++ c :: t) = lower s ++ c :: lower t

/-- `str.lower` as far as the ASCII letters of its result go. -/
def asciiLowering : Lowering where
  lower := Graph.lower
  lower_space := by
    intro s c t hc
    have hcase : ¬ (0x41 ≤ c.val ∧ c.val ≤ 0x5a) ∧ c.val ≠ 0x212a ∧ c.val ≠ 0x130 := by
      simp only [isSpace, Bool.or_eq_true, Bool.and_eq_true, decide_eq_true_eq, beq_iff_eq] at hc
      omega
    rw [Graph.lower, List.flatMap_append, List.flatMap_cons, if_neg hcase.1, if_neg hcase.2.1,
      if_neg hcase.2.2]
    rfl

/-- A phrase: words of a name that follow each other. -/
abbrev Phrase := List Text

/-- `_CUE_WORDS`. -/
def cueWords : List Text :=
  [text "project", text "projects", text "repo", text "repos", text "repository",
    text "codebase"]

/-- `_words` of a text in lower case. -/
def lowerWords (lowered : Text) : Phrase := maximalRuns isSlugChar lowered

/-- The words of a phrase joined by `[-_]?`. -/
def joinedPattern : Phrase → Pattern CodePoint
  | [] => .empty
  | [w] => .literal (· == ·) w
  | w :: w' :: phrase => .seq (.literal (· == ·) w)
      (.seq (.opt (.one fun c => c == 0x2d || c == 0x5f)) (joinedPattern (w' :: phrase)))

/-- No letter or digit stands at this side of a position. -/
def isClear (c : Option CodePoint) : Bool := c.all fun c => !isSlugChar c

/-- The pattern of `spelled`. -/
def spelledPattern (phrase : Phrase) : Pattern CodePoint :=
  .seq (.between fun c _ => isClear c) (.seq (joinedPattern phrase) (.between fun _ c => isClear c))

def spelled (lowered : Text) (phrase : Phrase) : Bool := (spelledPattern phrase).search lowered

section Spelling
variable {lowered before m after : Text} {phrase : Phrase}

/-- The words of a phrase one after the other, with `-`, `_` or nothing between them. -/
inductive JoinedBy : Phrase → Text → Prop
  | one (w : Text) : JoinedBy [w] w
  | cons (w : Text) {joiner m : Text} {phrase : Phrase}
      (hjoiner : joiner = [] ∨ joiner = text "-" ∨ joiner = text "_")
      (h : JoinedBy phrase m) : JoinedBy (w :: phrase) (w ++ (joiner ++ m))

/-- The text holds the words of a phrase so joined, not beside another letter or digit. -/
def Spells (lowered : Text) (phrase : Phrase) : Prop :=
  ∃ before m after, lowered = before ++ m ++ after ∧ JoinedBy phrase m ∧
    (∀ c ∈ before.getLast?, isSlugChar c = false) ∧ ∀ c ∈ after.head?, isSlugChar c = false

theorem isClear_iff {c : Option CodePoint} :
    isClear c = true ↔ ∀ d ∈ c, isSlugChar d = false := by
  cases c <;> simp [isClear]

theorem matches_literal_eq {w : Text} :
    (Pattern.literal (· == ·) w).Matches before m after ↔ m = w := by
  rw [Pattern.matches_literal]
  simp only [beq_iff_eq, List.forall₂_eq_eq_eq]
  exact eq_comm

theorem matches_joiner :
    (Pattern.opt (.one fun c : CodePoint => c == 0x2d || c == 0x5f)).Matches before m after ↔
      m = [] ∨ m = text "-" ∨ m = text "_" := by
  have hdash : text "-" = [0x2d] := rfl
  have hunderscore : text "_" = [0x5f] := rfl
  rw [Pattern.Matches, Pattern.Matches, hdash, hunderscore]
  apply or_congr_right
  constructor
  · intro h
    obtain ⟨c, hc, rfl⟩ := h
    simpa using hc
  · intro h
    obtain rfl | rfl := h
    · exact ⟨_, rfl, rfl⟩
    · exact ⟨_, rfl, rfl⟩

theorem matches_joinedPattern (hne : phrase ≠ []) :
    (joinedPattern phrase).Matches before m after ↔ JoinedBy phrase m := by
  induction phrase generalizing before m with
  | nil => exact absurd rfl hne
  | cons w phrase ih =>
      cases phrase with
      | nil =>
          rw [joinedPattern, matches_literal_eq]
          constructor
          · intro h
            rw [h]
            exact .one w
          · intro h
            cases h with
            | one => rfl
            | cons _ _ h => cases h
      | cons w' phrase =>
          rw [joinedPattern]
          constructor
          · intro h
            obtain ⟨m₁, m₂, rfl, hw, joiner, rest, rfl, hjoiner, hrest⟩ := h
            rw [matches_literal_eq] at hw
            rw [hw]
            exact .cons w (matches_joiner.mp hjoiner) ((ih (List.cons_ne_nil _ _)).mp hrest)
          · intro h
            cases h with
            | cons _ hjoiner h =>
                exact ⟨_, _, rfl, matches_literal_eq.mpr rfl, _, _, rfl,
                  matches_joiner.mpr hjoiner, (ih (List.cons_ne_nil _ _)).mpr h⟩

/-- A search for the pattern finds what the text spells. -/
theorem spelled_iff (hne : phrase ≠ []) :
    spelled lowered phrase = true ↔ Spells lowered phrase := by
  rw [spelled, Pattern.search_iff]
  constructor
  · intro h
    obtain ⟨before, m, after, hs, start, body, rfl, ⟨rfl, hstart⟩, hbody⟩ := h
    obtain ⟨m, stop, rfl, hm, rfl, hstop⟩ := hbody
    refine ⟨before, m, after, ?_, ?_, ?_, ?_⟩
    · simpa using hs
    · exact (matches_joinedPattern hne).mp hm
    · exact isClear_iff.mp hstart
    · exact isClear_iff.mp hstop
  · intro h
    obtain ⟨before, m, after, hs, hm, hstart, hstop⟩ := h
    refine ⟨before, m, after, hs, [], m, rfl, ⟨rfl, isClear_iff.mpr hstart⟩, m, [], ?_, ?_, ?_⟩
    · exact (List.append_nil m).symm
    · exact (matches_joinedPattern hne).mpr hm
    · exact ⟨rfl, isClear_iff.mpr hstop⟩

end Spelling

/-- The words between single spaces, with one at either end. -/
def spaced (words : Phrase) : Text := text " " ++ join (text " ") words ++ text " "

def mentions (lowered : Text) (phrase : Phrase) : Bool :=
  spelled lowered phrase || decide (spaced phrase <:+: spaced (lowerWords lowered))

/-- The runs of two or more words of a name. -/
def phrases (w : Phrase) : Finset Phrase :=
  (Finset.range w.length).biUnion fun start =>
    (Finset.Ico (start + 2) (w.length + 1)).image fun stop => (w.take stop).drop start

section Match
variable (lowering : Lowering) (question : Text) (names : Finset Text)

def words (s : Text) : Phrase := lowerWords (lowering.lower s)

/-- The names with a phrase. -/
def owners (phrase : Phrase) : Finset Text :=
  names.filter fun name => phrase ∈ phrases (words lowering name)

/-- The phrases of one name only. -/
def uniqueParts (name : Text) : Finset Phrase :=
  (names.biUnion fun name => phrases (words lowering name)).filter fun phrase =>
    owners lowering names phrase = {name}

def Cued : Prop := ∃ w ∈ words lowering question, w ∈ cueWords

instance : Decidable (Cued lowering question) :=
  inferInstanceAs (Decidable (∃ w ∈ words lowering question, w ∈ cueWords))

def Named (name : Text) : Prop :=
  let lowered := lowering.lower question
  let w := words lowering name
  1 < w.length ∧ spelled lowered w = true ∨
    Cued lowering question ∧ w ≠ [] ∧
      (mentions lowered w = true ∨
        ∃ phrase ∈ uniqueParts lowering names name, mentions lowered phrase = true)

instance (name : Text) : Decidable (Named lowering question names name) :=
  inferInstanceAs (Decidable (_ ∨ _ ∧ _ ∧ (_ ∨ _)))

def matchProjects : List Text :=
  (names.filter fun name => Named lowering question names name).sort (· ≤ ·)

theorem mem_matchProjects {name : Text} : name ∈ matchProjects lowering question names ↔
    name ∈ names ∧ Named lowering question names name := by
  rw [matchProjects, Finset.mem_sort, Finset.mem_filter]

end Match

section Growth
variable {lowering : Lowering} {question name : Text} {names more : Finset Text}

theorem owners_mono (h : names ⊆ more) (phrase : Phrase) :
    owners lowering names phrase ⊆ owners lowering more phrase :=
  Finset.filter_subset_filter _ h

/-- A phrase of one name among more names is one of that name among fewer. -/
theorem uniqueParts_anti (h : names ⊆ more) (hname : name ∈ names) :
    uniqueParts lowering more name ⊆ uniqueParts lowering names name := by
  intro phrase hphrase
  obtain ⟨-, hunique⟩ := Finset.mem_filter.mp hphrase
  have howner : name ∈ owners lowering more phrase := by
    rw [hunique]
    exact Finset.mem_singleton_self name
  have hpart : phrase ∈ phrases (words lowering name) := (Finset.mem_filter.mp howner).2
  apply Finset.mem_filter.mpr
  refine ⟨Finset.mem_biUnion.mpr ⟨name, hname, hpart⟩, Finset.Subset.antisymm ?_ ?_⟩
  · calc owners lowering names phrase ⊆ owners lowering more phrase := owners_mono h phrase
      _ = {name} := hunique
  · exact Finset.singleton_subset_iff.mpr (Finset.mem_filter.mpr ⟨hname, hpart⟩)

theorem Named.anti (h : names ⊆ more) (hname : name ∈ names)
    (hnamed : Named lowering question more name) : Named lowering question names name := by
  obtain hspelled | ⟨hcued, hwords, hmention | ⟨phrase, hphrase, hmention⟩⟩ := hnamed
  · exact Or.inl hspelled
  · exact Or.inr ⟨hcued, hwords, Or.inl hmention⟩
  · exact Or.inr ⟨hcued, hwords, Or.inr ⟨phrase, uniqueParts_anti h hname hphrase, hmention⟩⟩

theorem mem_matchProjects_of_spells (hname : name ∈ names)
    (hlength : 2 ≤ (words lowering name).length)
    (hspells : Spells (lowering.lower question) (words lowering name)) :
    name ∈ matchProjects lowering question names := by
  have hne : words lowering name ≠ [] := List.ne_nil_of_length_pos (by omega)
  exact (mem_matchProjects ..).mpr ⟨hname, Or.inl ⟨hlength, (spelled_iff hne).mpr hspells⟩⟩

variable (lowering question)

/-- With more projects a question names no more of the old ones, and still those whose
words it spells. -/
theorem matchProjects_anti (h : names ⊆ more) : ∀ name ∈ names,
    (name ∈ matchProjects lowering question more → name ∈ matchProjects lowering question names) ∧
    (2 ≤ (words lowering name).length →
      Spells (lowering.lower question) (words lowering name) →
        name ∈ matchProjects lowering question names ∧
          name ∈ matchProjects lowering question more) := by
  intro name hname
  constructor
  · intro hmatch
    obtain ⟨-, hnamed⟩ := (mem_matchProjects ..).mp hmatch
    exact (mem_matchProjects ..).mpr ⟨hname, hnamed.anti h hname⟩
  · intro hlength hspells
    exact ⟨mem_matchProjects_of_spells hname hlength hspells,
      mem_matchProjects_of_spells (h hname) hlength hspells⟩

/-- A second project with the phrase "graph rag" takes it from the first. -/
theorem matchProjects_anti_graph_rag :
    (text "local-graph-rag" ∈ matchProjects asciiLowering (text "the graph rag repo")
        {text "local-graph-rag", text "graph-rag-ui"} →
      text "local-graph-rag" ∈ matchProjects asciiLowering (text "the graph rag repo")
        {text "local-graph-rag"}) ∧
    (2 ≤ (words asciiLowering (text "local-graph-rag")).length →
      Spells (asciiLowering.lower (text "the graph rag repo"))
          (words asciiLowering (text "local-graph-rag")) →
        text "local-graph-rag" ∈ matchProjects asciiLowering (text "the graph rag repo")
            {text "local-graph-rag"} ∧
          text "local-graph-rag" ∈ matchProjects asciiLowering (text "the graph rag repo")
            {text "local-graph-rag", text "graph-rag-ui"}) :=
  matchProjects_anti asciiLowering (text "the graph rag repo") (by simp)
    (text "local-graph-rag") (by simp)

end Growth

section Verbatim
variable {lowering : Lowering} {question name : Text} {names : Finset Text}

/-- The question holds the name as the directory is called, up to letter case, between
whitespace or the ends. -/
def NamedVerbatim (lowering : Lowering) (name question : Text) : Prop :=
  ∃ before middle after, question = before ++ middle ++ after ∧
    lowering.lower middle = lowering.lower name ∧
    (∀ c ∈ before.getLast?, isSpace c = true) ∧ ∀ c ∈ after.head?, isSpace c = true

/-- Between two words of the name stands exactly one `-` or `_`. -/
def IsIdentifier (lowering : Lowering) (name : Text) : Prop :=
  ∃ start m stop, lowering.lower name = start ++ m ++ stop ∧ JoinedBy (words lowering name) m ∧
    (∀ c ∈ start, isSlugChar c = false) ∧ ∀ c ∈ stop, isSlugChar c = false

theorem isSlugChar_of_isSpace {c : CodePoint} (hc : isSpace c = true) : isSlugChar c = false := by
  simp only [isSpace, Bool.or_eq_true, Bool.and_eq_true, decide_eq_true_eq, beq_iff_eq] at hc
  simp only [isSlugChar, Bool.or_eq_false_iff, Bool.and_eq_false_iff, decide_eq_false_iff_not]
  omega

theorem NamedVerbatim.refl (name : Text) : NamedVerbatim lowering name name :=
  ⟨[], name, [], by simp, rfl, by simp, by simp⟩

/-- In lower case the name still stands between whitespace or the ends. -/
theorem NamedVerbatim.lower (h : NamedVerbatim lowering name question) : ∃ before after,
    lowering.lower question = before ++ lowering.lower name ++ after ∧
      (∀ c ∈ before.getLast?, isSlugChar c = false) ∧
      ∀ c ∈ after.head?, isSlugChar c = false := by
  obtain ⟨before, middle, after, rfl, hmiddle, hbefore, hafter⟩ := h
  have hright : ∃ rest, lowering.lower (middle ++ after) = lowering.lower name ++ rest ∧
      ∀ c ∈ rest.head?, isSlugChar c = false := by
    cases after with
    | nil => exact ⟨[], by rw [List.append_nil, List.append_nil, hmiddle], by simp⟩
    | cons c after =>
        have hc := hafter c rfl
        refine ⟨c :: lowering.lower after, ?_, ?_⟩
        · rw [lowering.lower_space _ _ _ hc, hmiddle]
        · simpa using isSlugChar_of_isSpace hc
  obtain ⟨rest, hrest, hclear⟩ := hright
  obtain rfl | ⟨before, c, rfl⟩ := List.eq_nil_or_concat' before
  · exact ⟨[], rest, by simpa using hrest, by simp, hclear⟩
  · have hc := hbefore c List.getLast?_concat
    refine ⟨lowering.lower before ++ [c], rest, ?_, ?_, hclear⟩
    · calc lowering.lower (before ++ [c] ++ middle ++ after)
          = lowering.lower (before ++ c :: (middle ++ after)) := by simp
        _ = lowering.lower before ++ c :: lowering.lower (middle ++ after) :=
            lowering.lower_space _ _ _ hc
        _ = _ := by rw [hrest]; simp
    · simpa using isSlugChar_of_isSpace hc

/-- The words of the name are words of the question, one after the other. -/
theorem NamedVerbatim.words_infix (h : NamedVerbatim lowering name question) :
    words lowering name <:+: words lowering question := by
  obtain ⟨before, after, hlower, hbefore, hafter⟩ := h.lower
  rw [words, words, hlower, lowerWords, lowerWords, maximalRuns_around hbefore hafter]
  exact ⟨_, _, rfl⟩

theorem spaced_eq {w : Phrase} (hne : w ≠ []) :
    spaced w = text " " ++ w.flatMap fun word => word ++ text " " := by
  rw [spaced, List.append_assoc]
  congr 1
  induction w with
  | nil => exact absurd rfl hne
  | cons word w ih =>
      cases w with
      | nil => rw [join_singleton, List.flatMap_singleton]
      | cons word' w =>
          rw [join_cons _ _ (List.cons_ne_nil _ _), List.flatMap_cons, ← ih (List.cons_ne_nil _ _)]
          simp

theorem spaced_infix {w w' : Phrase} (hne : w ≠ []) (h : w <:+: w') : spaced w <:+: spaced w' := by
  have hne' : w' ≠ [] := fun hnil => hne (List.infix_nil.mp (hnil ▸ h))
  obtain ⟨before, after, rfl⟩ := h
  -- the space that ends the word before it opens the phrase
  have hlast : ∃ start, text " " ++ before.flatMap (fun word => word ++ text " ") =
      start ++ text " " := by
    obtain rfl | ⟨before, word, rfl⟩ := List.eq_nil_or_concat' before
    · exact ⟨[], rfl⟩
    · refine ⟨text " " ++ before.flatMap (fun word => word ++ text " ") ++ word, ?_⟩
      simp
  obtain ⟨start, hstart⟩ := hlast
  refine ⟨start, after.flatMap fun word => word ++ text " ", ?_⟩
  rw [spaced_eq hne, spaced_eq hne', List.flatMap_append, List.flatMap_append,
    ← List.append_assoc, ← List.append_assoc, ← List.append_assoc, hstart]

/-- Beside a cue word the name counts, as its words are words of the question. -/
theorem named_verbatim_iff (hlength : 2 ≤ (words lowering name).length)
    (h : NamedVerbatim lowering name question) : Named lowering question names name ↔
      Cued lowering question ∨ Spells (lowering.lower question) (words lowering name) := by
  have hne : words lowering name ≠ [] := List.ne_nil_of_length_pos (by omega)
  rw [Named, ← spelled_iff hne]
  constructor
  · intro hnamed
    obtain ⟨-, hspelled⟩ | ⟨hcued, -⟩ := hnamed
    · exact Or.inr hspelled
    · exact Or.inl hcued
  · intro hnamed
    obtain hcued | hspelled := hnamed
    · have hmention := spaced_infix hne h.words_infix
      refine Or.inr ⟨hcued, hne, Or.inl ?_⟩
      rw [mentions, Bool.or_eq_true, decide_eq_true_iff]
      exact Or.inr hmention
    · exact Or.inl ⟨hlength, hspelled⟩

theorem JoinedBy.filter {phrase : Phrase} {m : Text} (h : JoinedBy phrase m)
    (hwords : ∀ w ∈ phrase, ∀ c ∈ w, isSlugChar c = true) :
    m.filter isSlugChar = phrase.flatten := by
  induction h with
  | one w =>
      rw [List.filter_eq_self.mpr (hwords w List.mem_cons_self), List.flatten_singleton]
  | cons w hjoiner h ih =>
      have hword := List.filter_eq_self.mpr (hwords w List.mem_cons_self)
      have hrest := ih fun w' hw' => hwords w' (List.mem_cons_of_mem w hw')
      rw [List.filter_append, List.filter_append, hword, hrest, List.flatten_cons]
      obtain rfl | rfl | rfl := hjoiner <;> rfl

/-- The words hold every letter and digit of the name, so nothing but joiners stands between
the words of what spells them, and nothing of the name's words around it. -/
theorem isIdentifier_of_spells (h : Spells (lowering.lower name) (words lowering name)) :
    IsIdentifier lowering name := by
  obtain ⟨start, m, stop, hlower, hm, -, -⟩ := h
  have hall : (lowering.lower name).filter isSlugChar = (words lowering name).flatten :=
    (flatten_maximalRuns _).symm
  have hinner : m.filter isSlugChar = (words lowering name).flatten :=
    hm.filter fun w hw c hc => of_mem_maximalRuns hw hc
  have hlength : (start.filter isSlugChar).length + (stop.filter isSlugChar).length = 0 := by
    have htotal := congrArg List.length hall
    rw [← hinner, hlower, List.filter_append, List.filter_append, List.length_append,
      List.length_append] at htotal
    omega
  have hstart := List.length_eq_zero_iff.mp (Nat.add_eq_zero_iff.mp hlength).1
  have hstop := List.length_eq_zero_iff.mp (Nat.add_eq_zero_iff.mp hlength).2
  refine ⟨start, m, stop, hlower, hm, fun c hc => ?_, fun c hc => ?_⟩
  · exact Bool.eq_false_iff.mpr (List.filter_eq_nil_iff.mp hstart c hc)
  · exact Bool.eq_false_iff.mpr (List.filter_eq_nil_iff.mp hstop c hc)

/-- A question that holds an identifier verbatim spells its words. -/
theorem IsIdentifier.spells (hname : IsIdentifier lowering name)
    (h : NamedVerbatim lowering name question) :
    Spells (lowering.lower question) (words lowering name) := by
  obtain ⟨start, m, stop, hlower, hm, hstart, hstop⟩ := hname
  obtain ⟨before, after, hquestion, hbefore, hafter⟩ := h.lower
  refine ⟨before ++ start, m, stop ++ after, ?_, hm, fun c hc => ?_, fun c hc => ?_⟩
  · rw [hquestion, hlower]
    simp only [List.append_assoc]
  · rw [List.getLast?_append] at hc
    obtain hc | ⟨-, hc⟩ := Option.or_eq_some_iff.mp hc
    · exact hstart c (List.mem_of_getLast? hc)
    · exact hbefore c hc
  · rw [List.head?_append] at hc
    obtain hc | ⟨-, hc⟩ := Option.or_eq_some_iff.mp hc
    · exact hstop c (List.mem_of_head? hc)
    · exact hafter c hc

/-- A project that a question names verbatim is recognised exactly beside a cue word or where
the question spells its words as an identifier. Every question that names it so recognises it
exactly if its own words are joined as an identifier or hold a cue word. -/
theorem matchProjects_verbatim_iff (hname : name ∈ names)
    (hlength : 2 ≤ (words lowering name).length) :
    (∀ question, NamedVerbatim lowering name question →
      (name ∈ matchProjects lowering question names ↔
        Cued lowering question ∨ Spells (lowering.lower question) (words lowering name))) ∧
    ((∀ question, NamedVerbatim lowering name question →
        name ∈ matchProjects lowering question names) ↔
      IsIdentifier lowering name ∨ ∃ w ∈ words lowering name, w ∈ cueWords) := by
  have hiff : ∀ question, NamedVerbatim lowering name question →
      (name ∈ matchProjects lowering question names ↔
        Cued lowering question ∨ Spells (lowering.lower question) (words lowering name)) := by
    intro question h
    rw [mem_matchProjects, and_iff_right hname, named_verbatim_iff hlength h]
  refine ⟨hiff, ?_, ?_⟩
  · intro h
    obtain hcued | hspells := (hiff name (.refl name)).mp (h name (.refl name))
    · exact Or.inr hcued
    · exact Or.inl (isIdentifier_of_spells hspells)
  · intro h question hquestion
    apply (hiff question hquestion).mpr
    obtain hidentifier | ⟨w, hw, hcue⟩ := h
    · exact Or.inr (hidentifier.spells hquestion)
    · exact Or.inl ⟨w, hquestion.words_infix.subset hw, hcue⟩

theorem matchProjects_verbatim_iff_rag_system :
    (∀ question, NamedVerbatim asciiLowering (text "rag-system") question →
      (text "rag-system" ∈ matchProjects asciiLowering question {text "rag-system"} ↔
        Cued asciiLowering question ∨ Spells (asciiLowering.lower question)
          (words asciiLowering (text "rag-system")))) ∧
    ((∀ question, NamedVerbatim asciiLowering (text "rag-system") question →
        text "rag-system" ∈ matchProjects asciiLowering question {text "rag-system"}) ↔
      IsIdentifier asciiLowering (text "rag-system") ∨
        ∃ w ∈ words asciiLowering (text "rag-system"), w ∈ cueWords) :=
  matchProjects_verbatim_iff (Finset.mem_singleton_self _) (by decide +kernel)

/-- A name whose words a dot joins is not recognised where it stands verbatim. -/
theorem notMem_matchProjects_dotted : 2 ≤ (words asciiLowering (text "my.thing")).length ∧
    NamedVerbatim asciiLowering (text "my.thing") (text "what is my.thing") ∧
    text "my.thing" ∉
      matchProjects asciiLowering (text "what is my.thing") {text "my.thing"} := by
  refine ⟨by decide +kernel, ?_, by decide +kernel⟩
  have hlast : (text "what is ").getLast? = some 0x20 := rfl
  refine ⟨text "what is ", text "my.thing", [], rfl, rfl, ?_, by simp⟩
  rw [hlast]
  simp [isSpace]

end Verbatim

end LocalGraphRag.Rag
