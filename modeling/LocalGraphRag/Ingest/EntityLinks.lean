import LocalGraphRag.Ingest.Indexing
import LocalGraphRag.Sequences.Patterns

/-!
# Which chunks mention an entity

The regular expression that links entities to chunks, against what it is for: a name
occurs where it is not part of a longer word. The two agree on names that begin and end
with a word character, and on no other.

## Implementation notes

The Unicode tables of `re` are a parameter: which code points are word characters, and
which a code point of the pattern matches when case is ignored.
-/

namespace LocalGraphRag.Ingest

open Python LocalGraphRag.Graph LocalGraphRag.Sequences

/-- The tables behind `\w` and `re.IGNORECASE`. -/
structure RegexTables where
  isWord : CodePoint → Bool
  same : CodePoint → CodePoint → Bool
  same_refl : ∀ c, same c c = true

section Ends
variable {R : CodePoint → CodePoint → Prop} {s t : Text}

theorem exists_head (h : List.Forall₂ R s t) (hne : s ≠ []) :
    ∃ c d, s.head? = some c ∧ t.head? = some d ∧ R c d := by
  cases h with
  | nil => exact absurd rfl hne
  | cons hcd _ => exact ⟨_, _, rfl, rfl, hcd⟩

theorem exists_getLast (h : List.Forall₂ R s t) (hne : s ≠ []) :
    ∃ c d, s.getLast? = some c ∧ t.getLast? = some d ∧ R c d := by
  obtain ⟨c, d, hc, hd, hcd⟩ := exists_head (List.forall₂_reverse_iff.mpr h)
    (List.reverse_ne_nil_iff.mpr hne)
  rw [List.head?_reverse] at hc hd
  exact ⟨c, d, hc, hd, hcd⟩

end Ends

section Pattern
variable (tables : RegexTables)

/-- `\b` between two neighbours. -/
def isBoundary (prev next : Option CodePoint) : Bool :=
  prev.any tables.isWord != next.any tables.isWord

/-- `r"\b" + re.escape(name) + r"\b"` with `re.IGNORECASE`. -/
def namePattern (name : Text) : Pattern CodePoint :=
  .seq (.between (isBoundary tables))
    (.seq (.literal tables.same name) (.between (isBoundary tables)))

def nameOccurs (name s : Text) : Bool := (namePattern tables name).search s

/-- The library with the search for a name. -/
def regexBuiltins (lib : Builtins) : Builtins := { lib with nameOccurs := nameOccurs tables }

/-- The name occurs in the text, ignoring case, where it is not part of a longer word: no
word character stands beside a word character at an end of the name. -/
def Mentions (name s : Text) : Prop :=
  ∃ before m after, s = before ++ m ++ after ∧
    List.Forall₂ (fun c d => tables.same c d = true) name m ∧
    (∀ c ∈ name.head?, tables.isWord c = true → ∀ d ∈ before.getLast?, tables.isWord d = false) ∧
    ∀ c ∈ name.getLast?, tables.isWord c = true → ∀ d ∈ after.head?, tables.isWord d = false

/-- The first and the last code point of the name are word characters, in either case. -/
structure FramedByWords (name : Text) : Prop where
  first : ∀ c ∈ name.head?, ∀ d, tables.same c d = true → tables.isWord d = true
  last : ∀ c ∈ name.getLast?, ∀ d, tables.same c d = true → tables.isWord d = true

variable {tables} {name s : Text}

theorem nameOccurs_iff : nameOccurs tables name s = true ↔ ∃ before m after,
    s = before ++ m ++ after ∧ List.Forall₂ (fun c d => tables.same c d = true) name m ∧
      isBoundary tables before.getLast? (m ++ after).head? = true ∧
      isBoundary tables (before ++ m).getLast? after.head? = true := by
  rw [nameOccurs, Pattern.search_iff]
  constructor
  · intro h
    obtain ⟨before, m, after, hs, start, body, rfl, ⟨rfl, hstart⟩, hbody⟩ := h
    obtain ⟨m, stop, rfl, hm, rfl, hstop⟩ := hbody
    rw [List.nil_append, List.append_nil] at hs
    rw [List.append_nil] at hstart hstop
    exact ⟨before, m, after, hs, Pattern.matches_literal.mp hm, hstart, hstop⟩
  · intro h
    obtain ⟨before, m, after, hs, hm, hstart, hstop⟩ := h
    refine ⟨before, m, after, hs, [], m, rfl, ⟨rfl, hstart⟩, m, [], ?_, ?_, rfl, ?_⟩
    · exact (List.append_nil m).symm
    · exact Pattern.matches_literal.mpr hm
    · rwa [List.append_nil]

/-- Beside a word character, `\b` asks for anything but another. -/
theorem isBoundary_some_right {d : CodePoint} (hd : tables.isWord d = true)
    (prev : Option CodePoint) : isBoundary tables prev (some d) = true ↔
      ∀ e ∈ prev, tables.isWord e = false := by
  cases prev <;> simp [isBoundary, hd]

theorem isBoundary_some_left {d : CodePoint} (hd : tables.isWord d = true)
    (next : Option CodePoint) : isBoundary tables (some d) next = true ↔
      ∀ e ∈ next, tables.isWord e = false := by
  cases next <;> simp [isBoundary, hd]

/-- Where the name begins and ends with word characters, `\b` asks for what the mention of a
name asks for. -/
theorem nameOccurs_iff_mentions (hframed : FramedByWords tables name) (hne : name ≠ []) :
    nameOccurs tables name s = true ↔ Mentions tables name s := by
  rw [nameOccurs_iff, Mentions]
  apply exists_congr
  intro before
  apply exists_congr
  intro m
  apply exists_congr
  intro after
  apply and_congr_right
  intro _
  apply and_congr_right
  intro hm
  obtain ⟨c, d, hc, hd, hcd⟩ := exists_head hm hne
  obtain ⟨c', d', hc', hd', hcd'⟩ := exists_getLast hm hne
  have hstart : (m ++ after).head? = some d := by rw [List.head?_append, hd, Option.some_or]
  have hstop : (before ++ m).getLast? = some d' := by
    rw [List.getLast?_append, hd', Option.some_or]
  have hwordc := hframed.first c hc c (tables.same_refl c)
  have hwordc' := hframed.last c' hc' c' (tables.same_refl c')
  rw [hstart, hstop, isBoundary_some_right (hframed.first c hc d hcd),
    isBoundary_some_left (hframed.last c' hc' d' hcd'), hc, hc']
  simp [hwordc, hwordc']

/-- A text as long as the name is searched as a whole. -/
theorem nameOccurs_eq_false (hlength : s.length = name.length)
    (hends : (∀ d ∈ s.head?, tables.isWord d = false) ∨
      ∀ d ∈ s.getLast?, tables.isWord d = false) : nameOccurs tables name s = false := by
  rw [← Bool.not_eq_true, nameOccurs_iff]
  intro h
  obtain ⟨before, m, after, rfl, hm, hstart, hstop⟩ := h
  have hmlength := hm.length_eq
  rw [List.length_append, List.length_append] at hlength
  have hbefore : before = [] := List.length_eq_zero_iff.mp (by omega)
  have hafter : after = [] := List.length_eq_zero_iff.mp (by omega)
  subst hbefore hafter
  simp only [List.nil_append, List.append_nil] at hstart hstop hends
  have hend : ∀ e : Option CodePoint, (∀ d ∈ e, tables.isWord d = false) →
      e.any tables.isWord = false := by
    intro e he
    cases e with
    | none => rfl
    | some d => exact he d rfl
  obtain hfirst | hlast := hends
  · rw [isBoundary, hend _ hfirst] at hstart
    exact Bool.false_ne_true hstart
  · rw [isBoundary, hend _ hlast] at hstop
    exact Bool.false_ne_true hstop

/-- Each name that the search treats as it should begins and ends with word characters: the
name itself, in a letter case that does not, is a mention that the search misses. -/
theorem framedByWords_of_forall
    (h : ∀ s, Mentions tables name s → nameOccurs tables name s = true) :
    FramedByWords tables name := by
  have hself : ∀ rest : Text, List.Forall₂ (fun c d => tables.same c d = true) rest rest :=
    fun rest => List.forall₂_same.mpr fun c _ => tables.same_refl c
  have hwhole : ∀ s : Text, List.Forall₂ (fun c d => tables.same c d = true) name s →
      ¬ ((∀ d ∈ s.head?, tables.isWord d = false) ∨ ∀ d ∈ s.getLast?, tables.isWord d = false) := by
    intro s hs hends
    have hmentions : Mentions tables name s := by
      refine ⟨[], s, [], ?_, hs, ?_, ?_⟩
      · simp
      · simp
      · simp
    have hmissed := nameOccurs_eq_false hs.length_eq.symm hends
    rw [h s hmentions] at hmissed
    cases hmissed
  constructor
  · intro c hc d hcd
    by_contra hd
    obtain ⟨rest, rfl⟩ := List.head?_eq_some_iff.mp hc
    apply hwhole (d :: rest) (.cons hcd (hself rest))
    left
    simpa using hd
  · intro c hc d hcd
    by_contra hd
    obtain ⟨rest, rfl⟩ := List.getLast?_eq_some_iff.mp hc
    apply hwhole (rest ++ [d]) (List.rel_append (hself rest) (.cons hcd .nil))
    right
    simpa using hd

end Pattern

section Links
variable {tables : RegexTables} {lib : Builtins} {names : Set Text}

/-- For every input whose entities have names of the set, a chunk is linked to an entity
exactly if it mentions the entity's name, of three or more code points. -/
def LinksMentions (tables : RegexTables) (lib : Builtins) (names : Set Text) : Prop :=
  ∀ (chunks chunkIds : List Text) (entities : List Entity) (entityIds : List Text),
    chunkIds.length = chunks.length → entities.length = entityIds.length →
    (∀ e ∈ entities, e.name ∈ names) → ∃ pairs,
      matchEntityChunks (regexBuiltins tables lib) chunks chunkIds entities entityIds =
        .ok pairs ∧
      ∀ x : Text × Text, x ∈ pairs ↔ ∃ e ∈ entities.zip entityIds, x.2 = e.2 ∧
        3 ≤ (strip e.1.name).length ∧ ∃ (i : ℕ) (t : Text), chunkIds[i]? = some x.1 ∧
          chunks[i]? = some t ∧ Mentions tables (strip e.1.name) t

theorem linksMentions_of_framed
    (h : ∀ name ∈ names, 3 ≤ (strip name).length → FramedByWords tables (strip name)) :
    LinksMentions tables lib names := by
  intro chunks chunkIds entities entityIds hids hentities hnames
  refine ⟨_, matchEntityChunks_eq _ hids hentities, ?_⟩
  intro x
  rw [List.mem_flatMap]
  apply exists_congr
  intro e
  apply and_congr_right
  intro he
  rw [mem_matchedPairs]
  apply and_congr_right
  intro _
  apply and_congr_right
  intro hlength
  have hname : e.1.name ∈ names := hnames e.1 (List.of_mem_zip he).1
  have hne : strip e.1.name ≠ [] := List.ne_nil_of_length_pos (by omega)
  have hoccurs : ∀ t, nameOccurs tables (strip e.1.name) t = true ↔
      Mentions tables (strip e.1.name) t :=
    fun t => nameOccurs_iff_mentions (h e.1.name hname hlength) hne
  simp only [regexBuiltins, hoccurs]

/-- The links are the mentions exactly for names that begin and end with word characters. -/
theorem linksMentions_iff : LinksMentions tables lib names ↔
    ∀ name ∈ names, 3 ≤ (strip name).length → FramedByWords tables (strip name) := by
  constructor
  · intro h name hname hlength
    apply framedByWords_of_forall
    intro s hmentions
    -- one chunk and one entity
    obtain ⟨pairs, hpairs, hmem⟩ :=
      h [s] [[]] [⟨name, none, []⟩] [[]] rfl rfl (by simpa using hname)
    have hlinked : (([], []) : Text × Text) ∈ pairs :=
      (hmem ([], [])).mpr ⟨_, List.mem_cons_self, rfl, hlength, 0, s, rfl, rfl, hmentions⟩
    obtain ⟨e, he, hpair⟩ := (mem_matchEntityChunks _ (by simp) hpairs _).mp hlinked
    obtain rfl := List.mem_singleton.mp he
    obtain ⟨-, -, i, t, -, ht, hoccurs⟩ := (mem_matchedPairs _).mp hpair
    obtain rfl := List.mem_singleton.mp (List.mem_of_getElem? ht)
    exact hoccurs
  · exact linksMentions_of_framed

/-- The tables on ASCII text. -/
def asciiTables : RegexTables where
  isWord c := isSlugChar c || (0x41 ≤ c.val && c.val ≤ 0x5a) || c == 0x5f
  same c d := lower [c] == lower [d]
  same_refl c := beq_self_eq_true (lower [c])

/-- The name of a call, with its brackets, is not found where it stands. -/
theorem matchEntityChunks_call :
    matchEntityChunks (regexBuiltins asciiTables ⟨fun _ => [], fun _ => [], fun _ _ => false⟩)
      [text "Call foo()."] [text "c1"] [⟨text "foo()", none, []⟩] [text "foo"] = .ok [] ∧
    3 ≤ (strip (text "foo()")).length ∧
    Mentions asciiTables (strip (text "foo()")) (text "Call foo().") := by
  refine ⟨by rfl, by decide +kernel, text "Call ", text "foo()", text ".", rfl, ?_, ?_, ?_⟩
  · exact List.forall₂_same.mpr fun c _ => asciiTables.same_refl c
  · have hlast : (text "Call ").getLast? = some 0x20 := rfl
    rw [hlast]
    simp [asciiTables, isSlugChar]
  · have hlast : (strip (text "foo()")).getLast? = some 0x29 := rfl
    rw [hlast]
    simp [asciiTables, isSlugChar]

end Links

end LocalGraphRag.Ingest
