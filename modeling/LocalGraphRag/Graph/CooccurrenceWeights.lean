import LocalGraphRag.Graph.CommunityDetection
import LocalGraphRag.Networks.SharedBlocks

/-!
# Co-occurrence weight is conserved

A chunk splits its weight over the pairs of the entities it links, so that each of them has
the same from it however many there are. The chunks are the blocks of the library, the
entities its vertices, and the weight of a key is the sum of its group of pairs.
-/

namespace LocalGraphRag.Graph.Tables

open Python Relational Networks

/-- The columns that the pairs are grouped by. -/
def linkKey (p : LinkRow × LinkRow) : Lex (Text × Text) := toLex (p.1.entityId, p.2.entityId)

/-- What the chunk of a pair adds to the weight of its key. -/
def pairWeight (t : Tables) (p : LinkRow × LinkRow) : ℚ :=
  (1 / 2 : ℚ) / ((t.linkCount p.1.chunkId : ℚ) - 1)

/-- The weights of all keys with an entity. -/
def weightOf (t : Tables) (e : Text) : ℚ :=
  ((t.cooccurrenceWeights.filter fun pair => pair.1.1 = e ∨ pair.1.2 = e).map Prod.snd).sum

/-- What one chunk adds to them. -/
def chunkPart (t : Tables) (chunkId e : Text) : ℚ :=
  ∑ p ∈ t.linkPairs with p.1.chunkId = chunkId ∧ (p.1.entityId = e ∨ p.2.entityId = e),
    t.pairWeight p

/-- The chunks that link an entity and another one. -/
def sharedChunks (t : Tables) (e : Text) : Finset Text :=
  (t.chunkEntities.select fun l => l.entityId = e ∧
    ∃ l' ∈ t.chunkEntities, l'.chunkId = l.chunkId ∧ l'.entityId ≠ e).image LinkRow.chunkId

variable {t : Tables} {a b e chunkId : Text} {l : LinkRow}

section Keys

theorem cooccurrenceWeights_eq (t : Tables) : t.cooccurrenceWeights =
    (orderBy (t.linkPairs.image linkKey)).map fun k =>
      (ofLex k, ∑ p ∈ t.linkPairs with linkKey p = k, t.pairWeight p) := by
  apply List.map_congr_left
  intro k _
  refine Prod.ext rfl (Finset.sum_congr ?_ fun _ _ => rfl)
  exact Finset.filter_congr fun p _ => Iff.rfl

/-- Keys are the pairs of entities that a chunk links. -/
theorem exists_cooccurrenceWeights :
    (∃ w, ((a, b), w) ∈ t.cooccurrenceWeights) ↔ a < b ∧
      ∃ l ∈ t.chunkEntities, ∃ l' ∈ t.chunkEntities,
        l.chunkId = l'.chunkId ∧ l.entityId = a ∧ l'.entityId = b := by
  rw [cooccurrenceWeights_eq]
  simp only [List.mem_map, mem_orderBy, Finset.mem_image]
  constructor
  · intro h
    obtain ⟨w, k, ⟨p, hp, hk⟩, hpair⟩ := h
    subst hk
    obtain ⟨hfirst, hsecond, hchunk, hlt⟩ := mem_linkPairs.mp hp
    have hkey : (p.1.entityId, p.2.entityId) = (a, b) := congrArg Prod.fst hpair
    obtain ⟨rfl, rfl⟩ := Prod.mk.inj hkey
    exact ⟨hlt, p.1, hfirst, p.2, hsecond, hchunk.symm, rfl, rfl⟩
  · intro h
    obtain ⟨hlt, l, hl, l', hl', hchunk, ha, hb⟩ := h
    subst ha hb
    exact ⟨_, _, ⟨(l, l'), mem_linkPairs.mpr ⟨hl, hl', hchunk.symm, hlt⟩, rfl⟩, rfl⟩

theorem nodup_cooccurrenceWeights (t : Tables) :
    (t.cooccurrenceWeights.map Prod.fst).Nodup := by
  rw [cooccurrenceWeights_eq, List.map_map]
  exact (nodup_orderBy _).map ofLex.injective

/-- The weights of the keys with an entity are those of the pairs with it. -/
theorem weightOf_eq (t : Tables) (e : Text) : t.weightOf e =
    ∑ p ∈ t.linkPairs with p.1.entityId = e ∨ p.2.entityId = e, t.pairWeight p := by
  rw [weightOf, cooccurrenceWeights_eq, List.filter_map, List.map_map]
  exact sum_groups t.linkPairs linkKey t.pairWeight fun k => (ofLex k).1 = e ∨ (ofLex k).2 = e

end Keys

section Totals

theorem linkPairs_eq (t : Tables) : t.linkPairs =
    blockPairs t.chunkEntities.rows LinkRow.chunkId LinkRow.entityId := by
  ext p
  exact mem_linkPairs.trans mem_blockPairs.symm

theorem pairWeight_eq (t : Tables) (p : LinkRow × LinkRow) : t.pairWeight p =
    share t.chunkEntities.rows LinkRow.chunkId (1 / 2 : ℚ) p.1.chunkId := rfl

theorem linkedOnce (t : Tables) :
    LinkedOnce t.chunkEntities.rows LinkRow.chunkId LinkRow.entityId := by
  intro l _ l' _ hchunk hentity
  cases l
  cases l'
  exact congrArg₂ LinkRow.mk hchunk hentity

theorem one_lt_linkCount_iff (hl : l ∈ t.chunkEntities) : 1 < t.linkCount l.chunkId ↔
    ∃ l' ∈ t.chunkEntities, l'.chunkId = l.chunkId ∧ l'.entityId ≠ l.entityId := by
  constructor
  · intro hcount
    obtain ⟨l', hl', hne⟩ := Finset.exists_mem_ne hcount l
    obtain ⟨hmem, hchunk⟩ := (Table.mem_select _ _ _).mp hl'
    refine ⟨l', hmem, hchunk, fun hentity => hne ?_⟩
    exact t.linkedOnce l' hmem l hl hchunk hentity
  · intro ⟨l', hl', hchunk, hne⟩
    apply Finset.one_lt_card.mpr
    refine ⟨l, (Table.mem_select _ _ _).mpr ⟨hl, rfl⟩, l',
      (Table.mem_select _ _ _).mpr ⟨hl', hchunk⟩, ?_⟩
    exact fun heq => hne (congrArg LinkRow.entityId heq).symm

theorem mem_sharedChunks : chunkId ∈ t.sharedChunks e ↔
    ∃ l ∈ t.chunkEntities, l.chunkId = chunkId ∧ l.entityId = e ∧ 1 < t.linkCount chunkId := by
  rw [sharedChunks, Finset.mem_image]
  constructor
  · intro ⟨l, hl, hchunk⟩
    obtain ⟨hmem, hentity, hother⟩ := (Table.mem_select _ _ _).mp hl
    subst hchunk hentity
    exact ⟨l, hmem, rfl, rfl, (one_lt_linkCount_iff hmem).mpr hother⟩
  · intro ⟨l, hl, hchunk, hentity, hcount⟩
    subst hchunk hentity
    exact ⟨l, (Table.mem_select _ _ _).mpr ⟨hl, rfl, (one_lt_linkCount_iff hl).mp hcount⟩, rfl⟩

/-- The chunks of an entity are counted by their links to it. -/
theorem card_sharedChunks (t : Tables) (e : Text) : (t.sharedChunks e).card =
    (t.chunkEntities.rows.filter fun l => l.entityId = e ∧ 1 < t.linkCount l.chunkId).card := by
  rw [sharedChunks, Finset.card_image_of_injOn]
  · apply congrArg Finset.card
    apply Finset.filter_congr
    intro l hl
    apply and_congr_right
    intro hentity
    rw [one_lt_linkCount_iff hl, hentity]
  · intro l hl l' hl' hchunk
    obtain ⟨hmem, hentity, -⟩ := (Table.mem_select _ _ _).mp hl
    obtain ⟨hmem', hentity', -⟩ := (Table.mem_select _ _ _).mp hl'
    exact t.linkedOnce l hmem l' hmem' hchunk (hentity.trans hentity'.symm)

theorem weightOf_total (t : Tables) (e : Text) :
    t.weightOf e = 1 / 2 * (t.sharedChunks e).card := by
  rw [weightOf_eq, card_sharedChunks, linkPairs_eq]
  exact sum_shares (1 / 2 : ℚ) t.linkedOnce e

/-- A chunk adds the same to each of its entities. -/
theorem chunkPart_eq (h : chunkId ∈ t.sharedChunks e) : t.chunkPart chunkId e = 1 / 2 := by
  obtain ⟨l, hl, rfl, rfl, hcount⟩ := mem_sharedChunks.mp h
  have hparts := sum_shares_of_block (1 / 2 : ℚ) t.linkedOnce hl hcount
  rw [chunkPart, linkPairs_eq]
  refine (Finset.sum_congr rfl ?_).trans hparts
  intro p hp
  rw [pairWeight_eq, (Finset.mem_filter.mp hp).2.1]

end Totals

/-- The co-occurrence map has the pairs of entities that share a chunk, and of each chunk that
an entity shares one half, in its weights. -/
structure Conserved (t : Tables) : Prop where
  nodup : (t.cooccurrenceWeights.map Prod.fst).Nodup
  keys : ∀ a b, (∃ w, ((a, b), w) ∈ t.cooccurrenceWeights) ↔ a < b ∧
    ∃ l ∈ t.chunkEntities, ∃ l' ∈ t.chunkEntities,
      l.chunkId = l'.chunkId ∧ l.entityId = a ∧ l'.entityId = b
  total : ∀ e, t.weightOf e = 1 / 2 * (t.sharedChunks e).card
  parts : ∀ e, t.weightOf e = ∑ chunkId ∈ t.sharedChunks e, t.chunkPart chunkId e
  equal : ∀ e, ∀ chunkId ∈ t.sharedChunks e, t.chunkPart chunkId e = 1 / 2
  divisor : ∀ p ∈ t.linkPairs, (t.linkCount p.1.chunkId : ℚ) - 1 ≠ 0

/-- Co-occurrence weight is conserved, whatever the chunks link. -/
theorem cooccurrence_conserved (t : Tables) : Conserved t := by
  have hequal : ∀ e, ∀ chunkId ∈ t.sharedChunks e, t.chunkPart chunkId e = 1 / 2 :=
    fun e chunkId h => chunkPart_eq h
  constructor
  · exact nodup_cooccurrenceWeights t
  · exact fun a b => exists_cooccurrenceWeights
  · exact weightOf_total t
  · intro e
    rw [weightOf_total, Finset.sum_congr rfl (hequal e), Finset.sum_const, nsmul_eq_mul, mul_comm]
  · exact hequal
  · intro p hp
    exact blockSize_sub_one_ne_zero (one_lt_linkCount hp)

end LocalGraphRag.Graph.Tables
