import LocalGraphRag.Graph.Communities
import LocalGraphRag.Python.Split
import LocalGraphRag.Sequences.Records

/-!
# What the member hash distinguishes

The hash covers the type and description of each entity of a community and the ends and
label of each relationship, each on a line with its fields separated. Types, descriptions
and labels are text that a model wrote, and none of it is escaped.

## Implementation notes

The hash function is a parameter without collisions. What a field may hold is said by the
set of its code points: the separator of fields is the only one that matters, since a line
of another kind has to hold it.
-/

namespace LocalGraphRag.Graph

open Python Relational Sequences

/-- What entity ids are. -/
def IsSlug (id : Text) : Prop := ∃ name, slugify name = id

theorem IsSlug.chars {id : Text} (h : IsSlug id) {c : CodePoint} (hc : c ∈ id) :
    isSlugChar c = true ∨ c = 0x5f := by
  obtain ⟨name, rfl⟩ := h
  exact collapse_chars false _ (stripWhile_subset _ _ hc)

theorem IsSlug.separator_notMem {id : Text} (h : IsSlug id) : 0x1f ∉ id := by
  intro hc
  exact absurd (h.chars hc) (by decide)

theorem IsSlug.newline_notMem {id : Text} (h : IsSlug id) : 0x0a ∉ id := by
  intro hc
  exact absurd (h.chars hc) (by decide)

/-- The fields of an entity that the hash covers, with NULL as the empty text. -/
def EntityRow.hashed (e : EntityRow) : Text × Text × Text :=
  (e.id, e.type.getD [], e.description.getD [])

/-- The fields of a relationship that the hash covers. -/
def CommunityEdge.hashed (r : CommunityEdge) : Text × Text × Text :=
  (r.sourceId, r.targetId, r.label)

/-- The rows that the store returns for a community. -/
structure CommunityState where
  entities : List EntityRow
  relationships : List CommunityEdge
  ids_nodup : (entities.map EntityRow.id).Nodup
  ids_slug : ∀ e ∈ entities, IsSlug e.id
  edges_nodup : (relationships.map CommunityEdge.hashed).Nodup
  endpoints : ∀ r ∈ relationships,
    r.sourceId ∈ entities.map EntityRow.id ∧ r.targetId ∈ entities.map EntityRow.id
  labels : ∀ r ∈ relationships, r.label ≠ []

section Store

theorem nodup_entitiesForCommunity (t : Tables) (communityId : Nat) :
    ((t.entitiesForCommunity communityId).map EntityRow.id).Nodup := by
  have hkeys : (t.entities.scan.map EntityRow.id).Nodup := by
    rw [Table.map_key_scan]
    exact nodup_orderBy _
  exact hkeys.sublist (List.filter_sublist.map _)

/-- The ends and labels of the relationships come from the rows within the community. -/
theorem hashed_relationshipsForCommunity (t : Tables) (communityId : Nat) :
    (t.relationshipsForCommunity communityId).map CommunityEdge.hashed =
      (orderBy ((t.communityRelationships communityId).image
        fun r => toLex (r.sourceId, toLex (r.targetId, r.label)))).map
          fun k => ((ofLex k).1, ofLex (ofLex k).2) := by
  rw [Tables.relationshipsForCommunity, List.map_map]
  rfl

theorem nodup_relationshipsForCommunity (t : Tables) (communityId : Nat) :
    ((t.relationshipsForCommunity communityId).map CommunityEdge.hashed).Nodup := by
  rw [hashed_relationshipsForCommunity]
  apply (nodup_orderBy _).map
  intro k k' h
  exact congrArg (fun x : Text × Text × Text => toLex (x.1, toLex x.2)) h

theorem mem_relationshipsForCommunity {t : Tables} {communityId : Nat} {edge : CommunityEdge}
    (h : edge ∈ t.relationshipsForCommunity communityId) :
    ∃ r ∈ t.communityRelationships communityId,
      edge.hashed = (r.sourceId, r.targetId, r.label) := by
  have hmem := List.mem_map_of_mem h (f := CommunityEdge.hashed)
  rw [hashed_relationshipsForCommunity] at hmem
  obtain ⟨k, hk, hedge⟩ := List.mem_map.mp hmem
  obtain ⟨r, hr, rfl⟩ := Finset.mem_image.mp (mem_orderBy.mp hk)
  exact ⟨r, hr, hedge.symm⟩

theorem mem_ids_entitiesForCommunity {t : Tables} {communityId : Nat} {id : Text}
    (h : ∃ e ∈ t.entities, e.id = id ∧ e.community = some communityId) :
    id ∈ (t.entitiesForCommunity communityId).map EntityRow.id := by
  obtain ⟨e, he, rfl, hcommunity⟩ := h
  apply List.mem_map_of_mem
  exact List.mem_filter.mpr ⟨(Table.mem_scan _ _).mpr he, decide_eq_true hcommunity⟩

/-- What the store returns for a community, where it holds what the extractor writes. -/
def Tables.communityState (t : Tables) (hids : ∀ e ∈ t.entities, IsSlug e.id)
    (hlabels : ∀ r ∈ t.relationships, r.label ≠ []) (communityId : Nat) : CommunityState where
  entities := t.entitiesForCommunity communityId
  relationships := t.relationshipsForCommunity communityId
  ids_nodup := nodup_entitiesForCommunity t communityId
  ids_slug := by
    intro e he
    exact hids e ((Table.mem_scan _ _).mp (List.mem_filter.mp he).1)
  edges_nodup := nodup_relationshipsForCommunity t communityId
  endpoints := by
    intro edge hedge
    obtain ⟨r, hr, hhashed⟩ := mem_relationshipsForCommunity hedge
    obtain ⟨hsource, htarget, -⟩ := by
      simpa only [CommunityEdge.hashed, Prod.mk.injEq] using hhashed
    obtain ⟨-, hs, ht⟩ := Finset.mem_filter.mp hr
    exact ⟨hsource ▸ mem_ids_entitiesForCommunity hs,
      htarget ▸ mem_ids_entitiesForCommunity ht⟩
  labels := by
    intro edge hedge
    obtain ⟨r, hr, hhashed⟩ := mem_relationshipsForCommunity hedge
    obtain ⟨-, -, hlabel⟩ := by simpa only [CommunityEdge.hashed, Prod.mk.injEq] using hhashed
    exact hlabel ▸ hlabels r (Finset.mem_filter.mp hr).1

end Store

namespace CommunityState

/-- `_compute_member_hash` of the rows of a community. -/
def memberHash (sha256 : Bytes → Text) (S : CommunityState) : Text :=
  computeMemberHash sha256 S.entities S.relationships

/-- The same set of entities by id, type and description, and the same set of relationships
by source, target and label. -/
structure SameContent (S T : CommunityState) : Prop where
  entities : (S.entities.map EntityRow.hashed).toFinset =
    (T.entities.map EntityRow.hashed).toFinset
  relationships : (S.relationships.map CommunityEdge.hashed).toFinset =
    (T.relationships.map CommunityEdge.hashed).toFinset

instance (S T : CommunityState) : Decidable (S.SameContent T) :=
  decidable_of_iff (_ ∧ _) ⟨fun h => ⟨h.1, h.2⟩, fun h => ⟨h.entities, h.relationships⟩⟩

/-- The code points of the types, descriptions and labels. -/
structure FieldsOver (C : Set CodePoint) (S : CommunityState) : Prop where
  type : ∀ e ∈ S.entities, ∀ c ∈ e.type.getD [], c ∈ C
  description : ∀ e ∈ S.entities, ∀ c ∈ e.description.getD [], c ∈ C
  label : ∀ r ∈ S.relationships, ∀ c ∈ r.label, c ∈ C

section Encoding

/-- The line of hashed fields. -/
def hashedLine (x : Text × Text × Text) : Text := join [0x1f] [x.1, x.2.1, x.2.2]

theorem hashedLine_eq_record (x : Text × Text × Text) : hashedLine x = record 0x1f x := by
  rw [hashedLine, join_cons _ _ (List.cons_ne_nil _ _), join_cons _ _ (List.cons_ne_nil _ _),
    join_singleton, record]
  simp only [List.append_assoc, List.singleton_append]

theorem memberHash_eq (sha256 : Bytes → Text) (S : CommunityState) :
    S.memberHash sha256 = sha256 (utf8 (join [0x0a]
      (sortedLines (hashedLine ∘ EntityRow.hashed) S.entities ++ [text "---"] ++
        sortedLines (hashedLine ∘ CommunityEdge.hashed) S.relationships))) := rfl

/-- The sorted lines are the lines of the records in some order. -/
theorem exists_sortedLines {α : Type} (fields : α → Text × Text × Text) (rows : List α) :
    ∃ records : List (Text × Text × Text), records.Perm (rows.map fields) ∧
      sortedLines (hashedLine ∘ fields) rows = records.map (record 0x1f) := by
  let before (x y : Text × Text × Text) : Prop := record 0x1f x ≤ record 0x1f y
  refine ⟨(rows.map fields).insertionSort before, List.perm_insertionSort _ _, ?_⟩
  rw [List.map_insertionSort before (· ≤ ·) _ _ fun x _ y _ => Iff.rfl, sortedLines,
    List.map_map]
  congr 1
  exact List.map_congr_left fun a _ => hashedLine_eq_record (fields a)

/-- The same lines in another order are sorted alike. -/
theorem sortedLines_perm {α : Type} {line : α → Text} {rows rows' : List α}
    (h : (rows.map line).Perm (rows'.map line)) :
    sortedLines line rows = sortedLines line rows' := by
  apply List.Perm.eq_of_pairwise' (List.pairwise_insertionSort (· ≤ ·) _)
    (List.pairwise_insertionSort (· ≤ ·) _)
  calc List.Perm (sortedLines line rows) (rows.map line) := List.perm_insertionSort _ _
    List.Perm _ (rows'.map line) := h
    List.Perm _ (sortedLines line rows') := (List.perm_insertionSort _ _).symm

theorem cons_join (sep : CodePoint) {parts : List Text} (h : parts ≠ []) :
    sep :: join [sep] parts = parts.flatMap (sep :: ·) := by
  induction parts with
  | nil => exact absurd rfl h
  | cons part parts ih =>
      by_cases hparts : parts = []
      · simp [hparts]
      · rw [join_cons _ _ hparts, List.flatMap_cons, ← ih hparts]
        simp

/-- The hashed text, after a line separator, is the two groups around the marker. -/
theorem cons_join_groups (records edges : List (Text × Text × Text)) :
    0x0a :: join [0x0a]
      (records.map (record 0x1f) ++ [text "---"] ++ edges.map (record 0x1f)) =
        groupLines 0x1f 0x0a (text "---") records edges := by
  rw [cons_join _ (by simp), groupLines, recordLines, recordLines]
  simp [List.flatMap_append, List.flatMap_map]

end Encoding

section Content
variable {sha256 : Bytes → Text} {C : Set CodePoint} {S T : CommunityState}

theorem map_fst_hashed (S : CommunityState) :
    (S.entities.map EntityRow.hashed).map Prod.fst = S.entities.map EntityRow.id := by
  rw [List.map_map]
  rfl

theorem nodup_hashed (S : CommunityState) : (S.entities.map EntityRow.hashed).Nodup := by
  have hids := S.ids_nodup
  rw [← map_fst_hashed] at hids
  exact hids.of_map

theorem sameContent_iff_perm : S.SameContent T ↔
    (S.entities.map EntityRow.hashed).Perm (T.entities.map EntityRow.hashed) ∧
      (S.relationships.map CommunityEdge.hashed).Perm
        (T.relationships.map CommunityEdge.hashed) := by
  constructor
  · intro h
    exact ⟨List.perm_of_nodup_nodup_toFinset_eq S.nodup_hashed T.nodup_hashed h.entities,
      List.perm_of_nodup_nodup_toFinset_eq S.edges_nodup T.edges_nodup h.relationships⟩
  · intro ⟨hentities, hrelationships⟩
    exact ⟨List.toFinset_eq_of_perm _ _ hentities, List.toFinset_eq_of_perm _ _ hrelationships⟩

/-- The hash does not depend on the order of the rows. -/
theorem memberHash_eq_of_sameContent (h : S.SameContent T) :
    S.memberHash sha256 = T.memberHash sha256 := by
  obtain ⟨hentities, hrelationships⟩ := sameContent_iff_perm.mp h
  have hentityLines := hentities.map hashedLine
  have hedgeLines := hrelationships.map hashedLine
  rw [List.map_map, List.map_map] at hentityLines hedgeLines
  rw [memberHash_eq, memberHash_eq, sortedLines_perm hentityLines, sortedLines_perm hedgeLines]

/-- The hashed text holds the two groups of records in some order. -/
theorem exists_groups (sha256 : Bytes → Text) (S : CommunityState) :
    ∃ records edges : List (Text × Text × Text),
      records.Perm (S.entities.map EntityRow.hashed) ∧
      edges.Perm (S.relationships.map CommunityEdge.hashed) ∧
      S.memberHash sha256 = sha256 (utf8 (join [0x0a]
        (records.map (record 0x1f) ++ [text "---"] ++ edges.map (record 0x1f)))) := by
  obtain ⟨records, hrecords, hentityLines⟩ := exists_sortedLines EntityRow.hashed S.entities
  obtain ⟨edges, hedges, hrelationshipLines⟩ :=
    exists_sortedLines CommunityEdge.hashed S.relationships
  refine ⟨records, edges, hrecords, hedges, ?_⟩
  rw [memberHash_eq, hentityLines, hrelationshipLines]

theorem separated_entity (hC : 0x1f ∉ C) (hS : S.FieldsOver C) {x : Text × Text × Text}
    (hx : x ∈ S.entities.map EntityRow.hashed) : Separated 0x1f 0x0a x := by
  obtain ⟨e, he, rfl⟩ := List.mem_map.mp hx
  have hslug := S.ids_slug e he
  exact ⟨hslug.separator_notMem, hslug.newline_notMem, fun hc => hC (hS.type e he _ hc),
    fun hc => hC (hS.description e he _ hc)⟩

theorem separated_edge (hC : 0x1f ∉ C) (hS : S.FieldsOver C) {x : Text × Text × Text}
    (hx : x ∈ S.relationships.map CommunityEdge.hashed) : Separated 0x1f 0x0a x := by
  obtain ⟨r, hr, rfl⟩ := List.mem_map.mp hx
  obtain ⟨hsource, htarget⟩ := S.endpoints r hr
  obtain ⟨e, he, heq⟩ := List.mem_map.mp hsource
  obtain ⟨e', he', heq'⟩ := List.mem_map.mp htarget
  have hslug : IsSlug r.sourceId := heq ▸ S.ids_slug e he
  have hslug' : IsSlug r.targetId := heq' ▸ S.ids_slug e' he'
  exact ⟨hslug.separator_notMem, hslug.newline_notMem, hslug'.separator_notMem,
    fun hc => hC (hS.label r hr _ hc)⟩

theorem edge_source_mem {x : Text × Text × Text}
    (hx : x ∈ S.relationships.map CommunityEdge.hashed) :
    x.1 ∈ (S.entities.map EntityRow.hashed).map Prod.fst := by
  obtain ⟨r, hr, rfl⟩ := List.mem_map.mp hx
  rw [map_fst_hashed]
  exact (S.endpoints r hr).1

/-- The sorted rows of a community, of which none has been read. -/
theorem remaining_groups (hC : 0x1f ∉ C) (hS : S.FieldsOver C)
    {records edges : List (Text × Text × Text)}
    (hrecords : records.Perm (S.entities.map EntityRow.hashed))
    (hedges : edges.Perm (S.relationships.map CommunityEdge.hashed)) :
    Remaining 0x1f 0x0a ∅ records edges := by
  constructor
  · exact fun x hx => separated_entity hC hS (hrecords.mem_iff.mp hx)
  · exact fun x hx => separated_edge hC hS (hedges.mem_iff.mp hx)
  · rw [(hrecords.map Prod.fst).nodup_iff, map_fst_hashed]
    exact S.ids_nodup
  · exact fun x _ => Set.notMem_empty x.1
  · intro x hx
    apply Or.inr
    apply (hrecords.map Prod.fst).mem_iff.mpr
    exact edge_source_mem (hedges.mem_iff.mp hx)

/-- Where no field holds the separator, the hash determines what it covers. -/
theorem sameContent_of_memberHash_eq (hsha : Function.Injective sha256) (hC : 0x1f ∉ C)
    (hS : S.FieldsOver C) (hT : T.FieldsOver C)
    (h : S.memberHash sha256 = T.memberHash sha256) : S.SameContent T := by
  obtain ⟨records, edges, hrecords, hedges, hhash⟩ := S.exists_groups sha256
  obtain ⟨records', edges', hrecords', hedges', hhash'⟩ := T.exists_groups sha256
  rw [hhash, hhash'] at h
  have hjoined := utf8_injective (hsha h)
  have hlines := congrArg (List.cons 0x0a) hjoined
  rw [cons_join_groups, cons_join_groups] at hlines
  have hnil : 0x1f ∉ ([] : Text) := List.not_mem_nil
  obtain ⟨-, hsame, hsameEdges⟩ := groupLines_cancel (by decide) (by decide) hnil hnil
    (remaining_groups hC hS hrecords hedges) (remaining_groups hC hT hrecords' hedges') hlines
  apply sameContent_iff_perm.mpr
  exact ⟨hrecords.symm.trans (hsame ▸ hrecords'), hedges.symm.trans (hsameEdges ▸ hedges')⟩

end Content

section Collisions
variable {S : CommunityState} {e : EntityRow} {type description : Text}

/-- One row with another type and description. -/
def redescribeRow (e : EntityRow) (type description : Text) (row : EntityRow) : EntityRow :=
  if row = e then { row with type := some type, description := some description } else row

theorem redescribeRow_id (row : EntityRow) :
    (redescribeRow e type description row).id = row.id := by
  rw [redescribeRow]
  split_ifs <;> rfl

theorem map_redescribeRow_id (rows : List EntityRow) :
    (rows.map (redescribeRow e type description)).map EntityRow.id = rows.map EntityRow.id := by
  rw [List.map_map]
  exact List.map_congr_left fun row _ => redescribeRow_id row

/-- The community with one entity's type and description replaced. -/
def redescribe (S : CommunityState) (e : EntityRow) (type description : Text) :
    CommunityState where
  entities := S.entities.map (redescribeRow e type description)
  relationships := S.relationships
  ids_nodup := by
    rw [map_redescribeRow_id]
    exact S.ids_nodup
  ids_slug := by
    simp only [List.mem_map, forall_exists_index, and_imp, forall_apply_eq_imp_iff₂,
      redescribeRow_id]
    exact S.ids_slug
  edges_nodup := S.edges_nodup
  endpoints := by
    rw [map_redescribeRow_id]
    exact S.endpoints
  labels := S.labels

/-- Only the joined fields count for the hash. -/
theorem memberHash_redescribe (sha256 : Bytes → Text)
    (h : type ++ 0x1f :: description = e.type.getD [] ++ 0x1f :: e.description.getD []) :
    (S.redescribe e type description).memberHash sha256 = S.memberHash sha256 := by
  have hrow : ∀ row, hashedLine (redescribeRow e type description row).hashed =
      hashedLine row.hashed := by
    intro row
    rw [redescribeRow]
    split_ifs with heq
    · rw [hashedLine_eq_record, hashedLine_eq_record, heq]
      exact congrArg (fun fields => e.id ++ 0x1f :: fields) h
    · rfl
  have hlines : ((S.redescribe e type description).entities.map
      (hashedLine ∘ EntityRow.hashed)).Perm (S.entities.map (hashedLine ∘ EntityRow.hashed)) := by
    rw [redescribe, List.map_map]
    exact List.Perm.of_eq (List.map_congr_left fun row _ => hrow row)
  rw [memberHash_eq, memberHash_eq, sortedLines_perm hlines]
  rfl

/-- The ids are distinct, so another type is another content. -/
theorem not_sameContent_redescribe (he : e ∈ S.entities) (htype : type ≠ e.type.getD []) :
    ¬S.SameContent (S.redescribe e type description) := by
  intro h
  have hmem : (e.id, type, description) ∈ S.entities.map EntityRow.hashed := by
    rw [← List.mem_toFinset, h.entities, List.mem_toFinset]
    refine List.mem_map.mpr ⟨redescribeRow e type description e, List.mem_map_of_mem he, ?_⟩
    rw [redescribeRow, if_pos rfl]
    rfl
  obtain ⟨row, hrow, hfields⟩ := List.mem_map.mp hmem
  obtain ⟨hid, htyped, -⟩ := by simpa only [EntityRow.hashed, Prod.mk.injEq] using hfields
  have heq : row = e := List.inj_on_of_nodup_map S.ids_nodup hrow he hid
  exact htype (by rw [← htyped, heq])

theorem FieldsOver.redescribe {C : Set CodePoint} (hS : S.FieldsOver C)
    (htype : ∀ c ∈ type, c ∈ C) (hdescription : ∀ c ∈ description, c ∈ C) :
    (S.redescribe e type description).FieldsOver C := by
  constructor
  · intro row hrow
    obtain ⟨old, hold, rfl⟩ := List.mem_map.mp hrow
    rw [redescribeRow]
    split_ifs
    · exact htype
    · exact hS.type old hold
  · intro row hrow
    obtain ⟨old, hold, rfl⟩ := List.mem_map.mp hrow
    rw [redescribeRow]
    split_ifs
    · exact hdescription
    · exact hS.description old hold
  · exact hS.label

/-- The separator in a field can be taken for the one between the fields. -/
theorem exists_other_split {sep : CodePoint} {a b : Text} (h : sep ∈ a ∨ sep ∈ b) :
    ∃ a' b', a' ++ sep :: b' = a ++ sep :: b ∧ a' ≠ a := by
  obtain ha | hb := h
  · obtain ⟨x, y, rfl⟩ := List.append_of_mem ha
    refine ⟨x, y ++ sep :: b, by simp, ?_⟩
    simp
  · obtain ⟨x, y, rfl⟩ := List.append_of_mem hb
    refine ⟨a ++ sep :: x, y, by simp, ?_⟩
    simp

/-- A community with the separator in a type or a description has the hash of another one,
written with the same code points. -/
theorem exists_collision (sha256 : Bytes → Text) (he : e ∈ S.entities)
    (hsep : 0x1f ∈ e.type.getD [] ∨ 0x1f ∈ e.description.getD []) :
    ∃ T : CommunityState, (∀ C, S.FieldsOver C → T.FieldsOver C) ∧
      S.memberHash sha256 = T.memberHash sha256 ∧ ¬S.SameContent T := by
  obtain ⟨type, description, hsplit, htype⟩ := exists_other_split hsep
  refine ⟨S.redescribe e type description, ?_, (memberHash_redescribe sha256 hsplit).symm,
    not_sameContent_redescribe he htype⟩
  intro C hS
  have hfields : ∀ c ∈ type ++ 0x1f :: description, c ∈ C := by
    rw [hsplit]
    intro c hc
    rw [List.mem_append, List.mem_cons] at hc
    obtain hc | rfl | hc := hc
    · exact hS.type e he c hc
    · exact hsep.elim (hS.type e he _) (hS.description e he _)
    · exact hS.description e he c hc
  apply hS.redescribe
  · exact fun c hc => hfields c (List.mem_append_left _ hc)
  · exact fun c hc => hfields c (List.mem_append_right _ (List.mem_cons_of_mem _ hc))

/-- A community of one entity. -/
def single (type description : Text) : CommunityState where
  entities := [⟨text "graph_store", text "Graph store", some type, some description, some 0⟩]
  relationships := []
  ids_nodup := List.nodup_singleton _
  ids_slug := by
    simp only [List.mem_singleton, forall_eq]
    exact ⟨text "Graph store", by decide⟩
  edges_nodup := List.nodup_nil
  endpoints := by simp
  labels := by simp

theorem fieldsOver_single {C : Set CodePoint} (htype : ∀ c ∈ type, c ∈ C)
    (hdescription : ∀ c ∈ description, c ∈ C) : (single type description).FieldsOver C := by
  constructor
  · simpa [single] using htype
  · simpa [single] using hdescription
  · simp [single]

end Collisions

/-- The hash tells communities apart by what it covers exactly where the fields cannot hold
the separator. Each community with it in a type or a description is taken for another. -/
theorem memberHash_distinguishes_iff {sha256 : Bytes → Text}
    (hsha : Function.Injective sha256) :
    (∀ C : Set CodePoint,
      (∀ S T : CommunityState, S.FieldsOver C → T.FieldsOver C →
        (S.memberHash sha256 = T.memberHash sha256 ↔ S.SameContent T)) ↔ 0x1f ∉ C) ∧
    ∀ S : CommunityState, (∃ e ∈ S.entities,
      0x1f ∈ e.type.getD [] ∨ 0x1f ∈ e.description.getD []) →
        ∃ T : CommunityState,
          ¬(S.memberHash sha256 = T.memberHash sha256 ↔ S.SameContent T) := by
  constructor
  · intro C
    constructor
    · intro hdistinguishes hC
      have hsingle : (single [0x1f] []).FieldsOver C :=
        fieldsOver_single (by simpa using hC) (by simp)
      obtain ⟨T, hT, hhash, hdifferent⟩ := exists_collision sha256
        (S := single [0x1f] []) List.mem_cons_self (Or.inl List.mem_cons_self)
      exact hdifferent ((hdistinguishes _ T hsingle (hT C hsingle)).mp hhash)
    · intro hC S T hS hT
      exact ⟨sameContent_of_memberHash_eq hsha hC hS hT, memberHash_eq_of_sameContent⟩
  · intro S ⟨e, he, hsep⟩
    obtain ⟨T, -, hhash, hdifferent⟩ := exists_collision sha256 he hsep
    exact ⟨T, fun h => hdifferent (h.mp hhash)⟩

theorem memberHash_distinguishes_old_new :
    (single (text "tool") (text "old description")).memberHash latin1 ≠
      (single (text "tool") (text "new, richer description")).memberHash latin1 := by
  intro h
  have hdistinguishes := ((memberHash_distinguishes_iff latin1_injective).1
    {c | c ≠ 0x1f}).mpr fun hmem => hmem rfl
  have hplain : ∀ description, 0x1f ∉ description →
      (single (text "tool") description).FieldsOver {c | c ≠ 0x1f} := by
    intro description hdescription
    apply fieldsOver_single
    · exact fun c hc heq => absurd (heq ▸ hc) (by decide : 0x1f ∉ text "tool")
    · exact fun c hc heq => hdescription (heq ▸ hc)
  have hsame := (hdistinguishes _ _ (hplain _ (by decide)) (hplain _ (by decide))).mp h
  exact absurd hsame (by decide)

/-- The separator within the description moves the end of the type. -/
theorem not_memberHash_distinguishes :
    ¬((single (text "a") (text "b\u001fc")).memberHash latin1 =
        (single (text "a\u001fb") (text "c")).memberHash latin1 ↔
      (single (text "a") (text "b\u001fc")).SameContent
        (single (text "a\u001fb") (text "c"))) := by
  decide

end CommunityState

end LocalGraphRag.Graph
