import LocalGraphRag.Graph.Neighborhood
import LocalGraphRag.Sequences.MaximalRuns
import LocalGraphRag.Sequences.Patterns
import LocalGraphRag.Systems.History

/-!
# Local retrieval

The chunks of the definitions that a question names, beside those of the vector search, and
the neighborhood of their entities. One scroll with one limit serves every name, so the
pieces of one definition may leave no room for another.

## Implementation notes

A scroll returns the first points of the collection that match, in the order of their ids.
What the vector search returns is a parameter. A match of the identifier pattern is a maximal
run of word characters, which is a token if all of them are ASCII and the first is no digit:
`\b` allows no shorter one. A dictionary is a function to `Option`.
-/

namespace LocalGraphRag.Rag

open LocalGraphRag.Python LocalGraphRag.Sequences LocalGraphRag.Relational
open LocalGraphRag.Graph LocalGraphRag.Systems

/-- A point of the collection, with what its payload may hold. -/
structure StoredPoint where
  id : Text
  text : Option Text
  filepath : Option Text
  chunkIndex : Option ℤ
  defName : Option Text
  deriving DecidableEq

/-- The points of the collection in the order of their ids. -/
structure Collection where
  points : List StoredPoint
  sorted : points.Pairwise fun p q => p.id < q.id

/-- `client.scroll`. -/
def Collection.scroll (c : Collection) (p : StoredPoint → Bool) (limit : ℕ) :
    List StoredPoint :=
  (c.points.filter p).take limit

def maxEntities : ℕ := 20

def maxRelationships : ℕ := 40

def maxIdentifierLookups : ℕ := 5

def maxPiecesPerDef : ℕ := 10

section Identifiers

/-- `[A-Za-z_]`. -/
def isIdentifierStart (c : CodePoint) : Bool :=
  (0x41 ≤ c.val && c.val ≤ 0x5a) || (0x61 ≤ c.val && c.val ≤ 0x7a) || c == 0x5f

/-- `[A-Za-z0-9_]`. -/
def isIdentifierChar (c : CodePoint) : Bool :=
  isIdentifierStart c || (0x30 ≤ c.val && c.val ≤ 0x39)

/-- `_CAMEL_RE`. -/
def camelPattern : Pattern CodePoint :=
  .seq (.one fun c => 0x61 ≤ c.val && c.val ≤ 0x7a) (.one fun c => 0x41 ≤ c.val && c.val ≤ 0x5a)

def extractIdentifiers (isWord : CodePoint → Bool) (question : Text) : List Text :=
  (maximalRuns isWord question).filter fun t =>
    t.all isIdentifierChar && t.head?.any isIdentifierStart &&
      (t.contains 0x5f || camelPattern.search t)

end Identifiers

section Lookup
variable (c : Collection) (defNames : List Text) (paths : Option (List Text))

/-- The condition of `_in_files`, which no paths or an empty list of them leave out. -/
def inScope (p : StoredPoint) : Bool :=
  (paths.getD []).isEmpty || p.filepath.any fun path => decide (path ∈ paths.getD [])

def lookupFilter (p : StoredPoint) : Bool :=
  p.defName.any (fun name => decide (name ∈ defNames)) && inScope paths p

/-- A chunk index, the id of the chunk and its text. -/
abbrev Piece := ℤ × Text × Text

/-- A round of the loop over the points, which skips those without a text. -/
def addPiece (byDef : Text → Option (List Piece)) (p : StoredPoint) :
    Text → Option (List Piece) :=
  match p.defName, p.text with
  | some name, some content => Function.update byDef name
      (some ((byDef name).getD [] ++ [(p.chunkIndex.getD 0, p.id, content)]))
  | _, _ => byDef

def lookupByDefNames : Text → Option (List (Text × Text)) :=
  if defNames = [] then fun _ => none
  else
    let points := c.scroll (lookupFilter defNames paths) (maxIdentifierLookups * maxPiecesPerDef)
    let byDef := points.foldl addPiece fun _ => none
    fun name => (byDef name).map fun pieces =>
      (pieces.mergeSort fun a b => decide (a.1 ≤ b.1)).map Prod.snd

end Lookup

structure LocalContext where
  entities : List EntityRow
  relationships : List CommunityEdge
  chunkTexts : List Text

section Retrieve
variable (isWord : CodePoint → Bool) (question : Text) (store : Tables) (c : Collection)
variable (hits : List StoredPoint) (hops : ℕ) (paths : Option (List Text))

/-- The identifiers that are looked up. -/
def dedupedIdentifiers : List Text :=
  (distinct (extractIdentifiers isWord question)).take maxIdentifierLookups

/-- A text that has not been seen is put after the others. -/
def addText (chunkTexts : List Text) (content : Text) : List Text :=
  if content ∈ chunkTexts then chunkTexts else chunkTexts ++ [content]

/-- `local_retrieve`, for the points that the vector search returned. -/
def localRetrieve : LocalContext :=
  let identifiers := dedupedIdentifiers isWord question
  let matchesByDef := lookupByDefNames c identifiers paths
  let defChunks := identifiers.flatMap fun ident => (matchesByDef ident).getD []
  let chunkTexts := (defChunks.map Prod.snd).foldl addText (hits.filterMap StoredPoint.text)
  let seedIds := store.getEntitiesByChunkIds (defChunks.map Prod.fst ++ hits.map StoredPoint.id)
  let neighborhood := store.expandNeighborhood seedIds hops maxEntities maxRelationships
  ⟨neighborhood.1, neighborhood.2, chunkTexts⟩

end Retrieve

section Found
variable {c : Collection} {defNames : List Text} {paths : Option (List Text)} {name : Text}

/-- What the point adds to the pieces of a name. -/
def StoredPoint.pieceOf (name : Text) (p : StoredPoint) : Option Piece :=
  if p.defName = some name then p.text.map fun content => (p.chunkIndex.getD 0, p.id, content)
  else none

theorem pieceOf_eq_some_iff {p : StoredPoint} {piece : Piece} : p.pieceOf name = some piece ↔
    p.defName = some name ∧ ∃ content, p.text = some content ∧
      (p.chunkIndex.getD 0, p.id, content) = piece := by
  rw [StoredPoint.pieceOf, Option.ite_none_right_eq_some, Option.map_eq_some_iff]

theorem addPiece_apply (byDef : Text → Option (List Piece)) (p : StoredPoint) (name : Text) :
    addPiece byDef p name = (p.pieceOf name).elim (byDef name)
      fun piece => some ((byDef name).getD [] ++ [piece]) := by
  rw [addPiece, StoredPoint.pieceOf]
  cases hname : p.defName with
  | none => rfl
  | some other =>
      cases htext : p.text with
      | none =>
          rw [Option.map_none]
          split_ifs <;> rfl
      | some content =>
          by_cases heq : other = name
          · rw [heq, if_pos rfl]
            exact Function.update_self ..
          · rw [if_neg fun h => heq (Option.some.inj h)]
            exact Function.update_of_ne (Ne.symm heq) ..

/-- The pieces of a name are those of its points, in their order. -/
theorem foldl_addPiece (points : List StoredPoint) (name : Text) :
    points.foldl addPiece (fun _ => none) name =
      if points.filterMap (StoredPoint.pieceOf name) = [] then none
      else some (points.filterMap (StoredPoint.pieceOf name)) := by
  apply foldl_invariant addPiece (fun byDef seen => byDef name =
    if seen.filterMap (StoredPoint.pieceOf name) = [] then none
    else some (seen.filterMap (StoredPoint.pieceOf name))) rfl
  intro before p _ byDef h
  rw [addPiece_apply, List.filterMap_append, h]
  cases hp : p.pieceOf name with
  | none => simp [hp]
  | some piece =>
      by_cases hnil : before.filterMap (StoredPoint.pieceOf name) = []
      · simp [hp, hnil]
      · simp [hp, hnil]

/-- The points that the lookup of a name finds. -/
def foundFor (c : Collection) (defNames : List Text) (paths : Option (List Text)) (name : Text) :
    List Piece :=
  (c.scroll (lookupFilter defNames paths) (maxIdentifierLookups * maxPiecesPerDef)).filterMap
    (StoredPoint.pieceOf name)

theorem lookupByDefNames_eq (hne : defNames ≠ []) :
    lookupByDefNames c defNames paths name =
      if foundFor c defNames paths name = [] then none
      else some (((foundFor c defNames paths name).mergeSort
        fun a b => decide (a.1 ≤ b.1)).map Prod.snd) := by
  rw [lookupByDefNames, if_neg hne]
  change (List.foldl addPiece (fun _ => none) _ name).map _ = _
  rw [foldl_addPiece]
  split_ifs with hnil hfound hfound
  · rfl
  · exact absurd hnil hfound
  · exact absurd hfound hnil
  · rfl

/-- The chunk is one of the name, in scope, with a text. -/
structure Defines (c : Collection) (paths : Option (List Text)) (name : Text) (p : StoredPoint) :
    Prop where
  mem : p ∈ c.points
  defName : p.defName = some name
  scope : inScope paths p = true
  text : p.text.isSome = true

/-- The points that match the filter of the lookup and come before this one. -/
def ahead (c : Collection) (defNames : List Text) (paths : Option (List Text))
    (p : StoredPoint) : Finset StoredPoint :=
  (c.points.filter (lookupFilter defNames paths)).toFinset.filter fun q => q.id < p.id

theorem Defines.lookupFilter {p : StoredPoint} (h : Defines c paths name p)
    (hname : name ∈ defNames) : lookupFilter defNames paths p = true := by
  simp [Rag.lookupFilter, h.defName, hname, h.scope]

/-- A scroll reaches a chunk exactly if there is room for those before it. -/
theorem mem_scroll_iff {p : StoredPoint} (hmem : p ∈ c.points)
    (hfilter : lookupFilter defNames paths p = true) (limit : ℕ) :
    p ∈ c.scroll (lookupFilter defNames paths) limit ↔
      (ahead c defNames paths p).card < limit := by
  have hsorted : (c.points.filter (lookupFilter defNames paths)).Pairwise
      fun p q => p.id < q.id := c.sorted.filter _
  have hrank : ∀ j, (c.points.filter (lookupFilter defNames paths))[j]? = some p →
      (ahead c defNames paths p).card = j := by
    intro j hj
    rw [ahead]
    convert card_filter_key_lt hsorted hj
  rw [Collection.scroll]
  constructor
  · intro h
    obtain ⟨j, hj⟩ := List.mem_iff_getElem?.mp h
    rw [List.getElem?_take] at hj
    obtain ⟨hlt, hj⟩ := Option.ite_none_right_eq_some.mp hj
    rwa [hrank j hj]
  · intro h
    obtain ⟨j, hj⟩ := List.mem_iff_getElem?.mp (List.mem_filter.mpr ⟨hmem, hfilter⟩)
    rw [hrank j hj] at h
    apply List.mem_of_getElem?
    rw [List.getElem?_take, if_pos h, hj]

theorem mem_foundFor {piece : Piece} : piece ∈ foundFor c defNames paths name ↔
    ∃ p ∈ c.scroll (lookupFilter defNames paths) (maxIdentifierLookups * maxPiecesPerDef),
      p.pieceOf name = some piece := by
  rw [foundFor, List.mem_filterMap]

theorem defines_of_scroll {p : StoredPoint} {piece : Piece} {limit : ℕ}
    (hp : p ∈ c.scroll (lookupFilter defNames paths) limit) (hpiece : p.pieceOf name = some piece) :
    Defines c paths name p := by
  obtain ⟨hmem, hfilter⟩ := List.mem_filter.mp (List.mem_of_mem_take hp)
  obtain ⟨hname, content, htext, -⟩ := pieceOf_eq_some_iff.mp hpiece
  exact ⟨hmem, hname, ((Bool.and_eq_true _ _).mp hfilter).2, by rw [htext]; rfl⟩

/-- Something is found for a name exactly if there is room for one of its chunks. -/
theorem foundFor_ne_nil_iff (hname : name ∈ defNames) : foundFor c defNames paths name ≠ [] ↔
    ∃ p, Defines c paths name p ∧
      (ahead c defNames paths p).card < maxIdentifierLookups * maxPiecesPerDef := by
  constructor
  · intro h
    obtain ⟨piece, hpiece⟩ := List.exists_mem_of_ne_nil _ h
    obtain ⟨p, hp, hpiece⟩ := mem_foundFor.mp hpiece
    have hdefines := defines_of_scroll hp hpiece
    exact ⟨p, hdefines, (mem_scroll_iff hdefines.mem (hdefines.lookupFilter hname) _).mp hp⟩
  · intro h
    obtain ⟨p, hdefines, hroom⟩ := h
    obtain ⟨content, hcontent⟩ := Option.isSome_iff_exists.mp hdefines.text
    have hpiece : p.pieceOf name = some (p.chunkIndex.getD 0, p.id, content) :=
      pieceOf_eq_some_iff.mpr ⟨hdefines.defName, content, hcontent, rfl⟩
    apply List.ne_nil_of_mem (mem_foundFor.mpr ⟨p, ?_, hpiece⟩)
    exact (mem_scroll_iff hdefines.mem (hdefines.lookupFilter hname) _).mpr hroom

end Found

section Context
variable {c : Collection} {defNames : List Text} {paths : Option (List Text)}

theorem mem_foldl_addText {contents chunkTexts : List Text} {content : Text} :
    content ∈ contents.foldl addText chunkTexts ↔ content ∈ chunkTexts ∨ content ∈ contents := by
  induction contents generalizing chunkTexts with
  | nil => simp
  | cons next contents ih =>
      have hadd : content ∈ addText chunkTexts next ↔
          content ∈ chunkTexts ∨ content = next := by
        rw [addText]
        split_ifs with hseen
        · constructor
          · exact Or.inl
          · intro h
            obtain h | rfl := h
            · exact h
            · exact hseen
        · rw [List.mem_append, List.mem_singleton]
      rw [List.foldl_cons, ih, hadd, List.mem_cons, or_assoc]

variable (c defNames paths)

/-- Every name that is defined in scope is looked up: something is found for it, what is
found is in the order of the chunk indices, and a question whose identifiers these are has
the text of one of its chunks in its context. -/
structure LooksUpEach : Prop where
  found : ∀ name ∈ defNames, (∃ p, Defines c paths name p) →
    ∃ pieces, lookupByDefNames c defNames paths name = some pieces ∧ pieces ≠ []
  ordered : ∀ name pieces, lookupByDefNames c defNames paths name = some pieces →
    ∃ sorted : List Piece, sorted.Pairwise (fun a b => a.1 ≤ b.1) ∧
      sorted.map Prod.snd = pieces ∧
      ∀ piece ∈ sorted, ∃ p, Defines c paths name p ∧ p.pieceOf name = some piece
  context : ∀ isWord question store hits hops,
    dedupedIdentifiers isWord question = defNames →
    ∀ name ∈ defNames, (∃ p, Defines c paths name p) → ∃ p, Defines c paths name p ∧
      ∃ content ∈ (localRetrieve isWord question store c hits hops paths).chunkTexts,
        p.text = some content

variable {c defNames paths}

theorem lookup_ordered {name : Text} {pieces : List (Text × Text)}
    (h : lookupByDefNames c defNames paths name = some pieces) :
    ∃ sorted : List Piece, sorted.Pairwise (fun a b => a.1 ≤ b.1) ∧
      sorted.map Prod.snd = pieces ∧
      ∀ piece ∈ sorted, ∃ p, Defines c paths name p ∧ p.pieceOf name = some piece := by
  by_cases hne : defNames = []
  · rw [lookupByDefNames, if_pos hne] at h
    cases h
  · rw [lookupByDefNames_eq hne] at h
    split_ifs at h
    refine ⟨_, ?_, Option.some.inj h, ?_⟩
    · have hsorted : ((foundFor c defNames paths name).mergeSort
          fun a b => decide (a.1 ≤ b.1)).Pairwise fun a b => decide (a.1 ≤ b.1) = true := by
        apply List.pairwise_mergeSort
        · intro a b d hab hbd
          exact decide_eq_true ((of_decide_eq_true hab).trans (of_decide_eq_true hbd))
        · intro a b
          simpa using le_total a.1 b.1
      exact hsorted.imp of_decide_eq_true
    · intro piece hpiece
      obtain ⟨p, hp, hpiece⟩ := mem_foundFor.mp (List.mem_mergeSort.mp hpiece)
      exact ⟨p, defines_of_scroll hp hpiece, hpiece⟩

/-- What is found for an identifier of the question is in the context. -/
theorem mem_chunkTexts {isWord : CodePoint → Bool} {question : Text} {store : Tables}
    {hits : List StoredPoint} {hops : ℕ} {name : Text} {pieces : List (Text × Text)}
    (hname : name ∈ dedupedIdentifiers isWord question)
    (h : lookupByDefNames c (dedupedIdentifiers isWord question) paths name = some pieces)
    {piece : Text × Text} (hpiece : piece ∈ pieces) :
    piece.2 ∈ (localRetrieve isWord question store c hits hops paths).chunkTexts := by
  apply mem_foldl_addText.mpr
  right
  apply List.mem_map_of_mem
  rw [List.mem_flatMap]
  refine ⟨name, hname, ?_⟩
  rw [h]
  exact hpiece

/-- Every name that is defined in scope is looked up exactly if, for each of these, fewer
points of looked-up names than the limit come before one of its chunks. -/
theorem looksUpEach_iff : LooksUpEach c defNames paths ↔
    ∀ name ∈ defNames, (∃ p, Defines c paths name p) → ∃ p, Defines c paths name p ∧
      (ahead c defNames paths p).card < maxIdentifierLookups * maxPiecesPerDef := by
  have hlookup : ∀ name ∈ defNames,
      ((∃ pieces, lookupByDefNames c defNames paths name = some pieces ∧ pieces ≠ []) ↔
        foundFor c defNames paths name ≠ []) := by
    intro name hname
    rw [lookupByDefNames_eq (List.ne_nil_of_mem hname)]
    split_ifs with hnil
    · simp [hnil]
    · refine iff_of_true ⟨_, rfl, List.ne_nil_of_length_pos ?_⟩ hnil
      rw [List.length_map, List.length_mergeSort]
      exact List.length_pos_iff.mpr hnil
  constructor
  · intro h name hname hdefined
    apply (foundFor_ne_nil_iff hname).mp
    exact (hlookup name hname).mp (h.found name hname hdefined)
  · intro h
    have hfound : ∀ name ∈ defNames, (∃ p, Defines c paths name p) →
        ∃ pieces, lookupByDefNames c defNames paths name = some pieces ∧ pieces ≠ [] := by
      intro name hname hdefined
      apply (hlookup name hname).mpr
      exact (foundFor_ne_nil_iff hname).mpr (h name hname hdefined)
    refine ⟨hfound, fun name pieces => lookup_ordered, ?_⟩
    intro isWord question store hits hops hidentifiers name hname hdefined
    subst hidentifiers
    obtain ⟨pieces, hpieces, hne⟩ := hfound name hname hdefined
    obtain ⟨sorted, -, rfl, hchunks⟩ := lookup_ordered hpieces
    obtain ⟨piece, hpiece⟩ := List.exists_mem_of_ne_nil _ (List.map_eq_nil_iff.not.mp hne)
    obtain ⟨p, hdefines, hpieceOf⟩ := hchunks piece hpiece
    obtain ⟨-, content, hcontent, rfl⟩ := pieceOf_eq_some_iff.mp hpieceOf
    refine ⟨p, hdefines, content, ?_, hcontent⟩
    exact mem_chunkTexts hname hpieces (List.mem_map_of_mem hpiece)

/-- A definition in the file of a number. -/
def definition (n : ℕ) (name : Text) : StoredPoint :=
  ⟨[Fin.ofNat 0x110000 n], some (text "def"), some [Fin.ofNat 0x110000 n], some 0, some name⟩

/-- Fifty files with a `parse_args` come before the one with `main_loop`. -/
def crowded : Collection where
  points := (List.range 50).map (fun n => definition n (text "parse_args")) ++
    [definition 50 (text "main_loop")]
  sorted := by decide +kernel

/-- The definition of `main_loop` is not looked up. -/
theorem lookupByDefNames_crowded :
    Defines crowded none (text "main_loop") (definition 50 (text "main_loop")) ∧
    lookupByDefNames crowded [text "parse_args", text "main_loop"] none (text "main_loop") =
      none := by
  refine ⟨⟨?_, rfl, rfl, rfl⟩, by decide +kernel⟩
  exact List.mem_append_right _ (List.mem_singleton_self _)

end Context

end LocalGraphRag.Rag
