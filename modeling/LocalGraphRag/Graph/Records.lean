import LocalGraphRag.Python.Text
import LocalGraphRag.Relational.Table
import Mathlib.Data.Finset.Union
import Mathlib.Data.Prod.Lex
import Mathlib.Algebra.Order.Ring.Unbundled.Rat

/-!
# The graph store's tables

One row type per table of the schema, with the columns that the store reads
or writes. A `GraphStore` carries the proof that its foreign keys hold, as
SQLite enforces them after each statement of a transaction.

## Implementation notes

A transaction is a list of statements. It commits when the foreign keys hold
after each of them and otherwise rolls back, so a failed transaction leaves
the store that it started from.
-/

namespace LocalGraphRag.Graph

open Python Relational

/-- `str.lower()` as far as the ASCII letters and digits of its result go: the
Kelvin sign and the dotted capital I are the only other code points whose lower
case holds one. The rest lower to text without any, here to themselves. -/
def lower (s : Text) : Text :=
  s.flatMap fun c =>
    if 0x41 ≤ c.val ∧ c.val ≤ 0x5a then [c + 0x20]
    else if c.val = 0x212a then [0x6b]
    else if c.val = 0x130 then [0x69, 0x307]
    else [c]

section Slug

/-- The code points a slug keeps, `[a-z0-9]`. -/
def isSlugChar (c : CodePoint) : Bool :=
  (0x61 ≤ c.val && c.val ≤ 0x7a) || (0x30 ≤ c.val && c.val ≤ 0x39)

/-- `re.sub(r"[^a-z0-9]+", "_", s)`; the flag says that a run is open. -/
def collapse : Bool → Text → Text
  | _, [] => []
  | inRun, c :: cs =>
      if isSlugChar c then c :: collapse false cs
      else if inRun then collapse true cs
      else 0x5f :: collapse true cs

/-- The normalised ASCII slug of an entity name. -/
def slugify (name : Text) : Text :=
  stripWhile (fun c => c == 0x5f) (collapse false (strip (lower name)))

theorem collapse_chars (inRun : Bool) (s : Text) {c : CodePoint}
    (hc : c ∈ collapse inRun s) : isSlugChar c = true ∨ c = 0x5f := by
  induction s generalizing inRun with
  | nil => simp [collapse] at hc
  | cons d s ih =>
      unfold collapse at hc
      split_ifs at hc with hd hr
      · obtain rfl | hc := List.mem_cons.mp hc
        · exact Or.inl hd
        · exact ih false hc
      · exact ih true hc
      · obtain rfl | hc := List.mem_cons.mp hc
        · exact Or.inr rfl
        · exact ih true hc

/-- A slug is ASCII whatever the name holds, so it is always encodable. -/
theorem slugify_encodable (name : Text) : Encodable (slugify name) := by
  intro c hc
  obtain h | rfl := collapse_chars false _ (stripWhile_subset _ _ hc)
  · simp only [isSlugChar, Bool.or_eq_true, Bool.and_eq_true, decide_eq_true_eq] at h
    simp only [isSurrogate, Bool.and_eq_false_iff, decide_eq_false_iff_not]
    omega
  · decide

example : slugify (text " Graph-Store  v2!") = text "graph_store_v2" := by decide

end Slug

/-- A row of `entities`. -/
structure EntityRow where
  id : Text
  name : Text
  type : Option Text
  description : Option Text
  community : Option Nat
  deriving DecidableEq

/-- A row of `relationships`. -/
structure RelationshipRow where
  sourceId : Text
  targetId : Text
  label : Text
  weight : ℚ
  sourceDoc : Text
  deriving DecidableEq

/-- `PRIMARY KEY (source_id, target_id, label, source_doc)`. -/
def RelationshipRow.key (r : RelationshipRow) : Text × Text × Text × Text :=
  (r.sourceId, r.targetId, r.label, r.sourceDoc)

/-- A row of `chunks`. -/
structure ChunkRow where
  chunkId : Text
  filepath : Text
  chunkIndex : Nat
  deriving DecidableEq

/-- A row of `chunk_entities`; the whole row is the key. -/
structure LinkRow where
  chunkId : Text
  entityId : Text
  deriving DecidableEq

/-- A row of `entity_mentions`. -/
structure MentionRow where
  entityId : Text
  sourceDoc : Text
  type : Option Text
  description : Option Text
  deriving DecidableEq

/-- `PRIMARY KEY (entity_id, source_doc)`. -/
def MentionRow.key (m : MentionRow) : Text × Text := (m.entityId, m.sourceDoc)

/-- A row of `communities`. -/
structure CommunityRow where
  id : Nat
  summary : Text
  entityIds : List Text
  memberHash : Option Text
  embedding : Option Bytes
  deriving DecidableEq

/-- A row of `extraction_cache`. -/
structure CacheRow where
  filepath : Text
  batchIndex : Nat
  promptSha256 : Text
  result : Text
  deriving DecidableEq

/-- `PRIMARY KEY (filepath, batch_index)`. -/
def CacheRow.key (c : CacheRow) : Text × Nat := (c.filepath, c.batchIndex)

/-- A row of `fingerprints`. -/
structure FingerprintRow where
  filepath : Text
  sha256 : Text
  deriving DecidableEq

/-- The tables of one database. -/
@[ext] structure Tables where
  entities : Table EntityRow EntityRow.id
  relationships : Table RelationshipRow RelationshipRow.key
  chunks : Table ChunkRow ChunkRow.chunkId
  chunkEntities : Table LinkRow (id : LinkRow → LinkRow)
  communities : Table CommunityRow CommunityRow.id
  extractionCache : Table CacheRow CacheRow.key
  fingerprints : Table FingerprintRow FingerprintRow.filepath
  entityMentions : Table MentionRow MentionRow.key
  deriving DecidableEq

namespace Tables

/-- The foreign keys of the schema. -/
structure ForeignKeys (t : Tables) : Prop where
  source : ∀ r ∈ t.relationships, ∃ e ∈ t.entities, e.id = r.sourceId
  target : ∀ r ∈ t.relationships, ∃ e ∈ t.entities, e.id = r.targetId
  chunk : ∀ l ∈ t.chunkEntities, ∃ c ∈ t.chunks, c.chunkId = l.chunkId
  entity : ∀ l ∈ t.chunkEntities, ∃ e ∈ t.entities, e.id = l.entityId
  mention : ∀ m ∈ t.entityMentions, ∃ e ∈ t.entities, e.id = m.entityId

theorem foreignKeys_iff (t : Tables) : t.ForeignKeys ↔
    (∀ r ∈ t.relationships, ∃ e ∈ t.entities, e.id = r.sourceId) ∧
    (∀ r ∈ t.relationships, ∃ e ∈ t.entities, e.id = r.targetId) ∧
    (∀ l ∈ t.chunkEntities, ∃ c ∈ t.chunks, c.chunkId = l.chunkId) ∧
    (∀ l ∈ t.chunkEntities, ∃ e ∈ t.entities, e.id = l.entityId) ∧
    ∀ m ∈ t.entityMentions, ∃ e ∈ t.entities, e.id = m.entityId :=
  ⟨fun h => ⟨h.source, h.target, h.chunk, h.entity, h.mention⟩,
    fun ⟨h₁, h₂, h₃, h₄, h₅⟩ => ⟨h₁, h₂, h₃, h₄, h₅⟩⟩

instance (t : Tables) : Decidable t.ForeignKeys :=
  decidable_of_iff' _ t.foreignKeys_iff

end Tables

/-- A database whose foreign keys hold. -/
structure GraphStore extends Tables where
  foreignKeys : toTables.ForeignKeys

/-- The exceptions of a store method: a text that SQLite cannot bind, a foreign
key violation, and the `ValueError` for an entity name without a slug. -/
inductive StoreError where
  | unencodable
  | foreignKey
  | emptySlug
  deriving DecidableEq

namespace GraphStore

@[ext] theorem ext {s s' : GraphStore} (h : s.toTables = s'.toTables) : s = s' := by
  cases s; cases s'; simp_all

instance : DecidableEq GraphStore := fun s s' =>
  decidable_of_iff (s.toTables = s'.toTables) ⟨ext, fun h => by rw [h]⟩

/-- The empty database. -/
def empty : GraphStore where
  entities := ∅
  relationships := ∅
  chunks := ∅
  chunkEntities := ∅
  communities := ∅
  extractionCache := ∅
  fingerprints := ∅
  entityMentions := ∅
  foreignKeys := by
    refine ⟨?_, ?_, ?_, ?_, ?_⟩ <;> intro r hr <;> simp at hr

/-- The state after one statement, if the foreign keys still hold. -/
def commit (t : Tables) : Except StoreError GraphStore :=
  if h : t.ForeignKeys then .ok ⟨t, h⟩ else .error .foreignKey

/-- One write transaction: its statements in order, or none of them. -/
def transaction (statements : List (Tables → Tables)) (s : GraphStore) :
    Except StoreError GraphStore :=
  statements.foldlM (fun s f => commit (f s.toTables)) s

/-- Bind text parameters: SQLite raises on one that UTF-8 cannot encode. -/
def bindText (parameters : List Text) : Except StoreError Unit :=
  if ∀ p ∈ parameters, Encodable p then .ok () else .error .unencodable

theorem commit_eq_ok {t : Tables} {s : GraphStore} :
    commit t = .ok s ↔ s.toTables = t := by
  unfold commit
  split_ifs with h
  · constructor
    · rintro ⟨⟩
      rfl
    · rintro rfl
      rfl
  · constructor
    · rintro ⟨⟩
    · rintro rfl
      exact absurd s.foreignKeys h

/-- The tables after a committed transaction are those its statements compute. -/
theorem transaction_tables {statements : List (Tables → Tables)} {s s' : GraphStore}
    (h : transaction statements s = .ok s') :
    s'.toTables = statements.foldl (fun t f => f t) s.toTables := by
  induction statements generalizing s with
  | nil =>
      cases h
      rfl
  | cons f statements ih =>
      simp only [transaction, List.foldlM_cons] at h
      cases hc : commit (f s.toTables) with
      | error e =>
          rw [hc] at h
          cases h
      | ok s₁ =>
          rw [hc] at h
          have ht := ih h
          rw [commit_eq_ok.mp hc] at ht
          exact ht

/-- A transaction commits when the foreign keys hold after every statement. -/
theorem transaction_cons_ok {f : Tables → Tables} {statements : List (Tables → Tables)}
    {s s' : GraphStore} (hf : (f s.toTables).ForeignKeys)
    (h : transaction statements ⟨f s.toTables, hf⟩ = .ok s') :
    transaction (f :: statements) s = .ok s' := by
  simp only [transaction, List.foldlM_cons]
  rw [commit_eq_ok.mpr (rfl : (⟨f s.toTables, hf⟩ : GraphStore).toTables = _)]
  exact h

theorem bindText_eq_ok {parameters : List Text} :
    bindText parameters = .ok () ↔ ∀ p ∈ parameters, Encodable p := by
  unfold bindText
  split_ifs with h
  · exact ⟨fun _ => h, fun _ => rfl⟩
  · constructor
    · rintro ⟨⟩
    · exact fun h' => absurd h' h

theorem bindText_bind_eq_ok {α : Type} {parameters : List Text}
    {m : Except StoreError α} {a : α} :
    (do bindText parameters; m) = .ok a ↔ (∀ p ∈ parameters, Encodable p) ∧ m = .ok a := by
  unfold bindText
  split_ifs with h
  · exact ⟨fun hm => ⟨h, hm⟩, fun hm => hm.2⟩
  · constructor
    · rintro ⟨⟩
    · exact fun hm => absurd hm.1 h

end GraphStore

end LocalGraphRag.Graph
