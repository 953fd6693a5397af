import LocalGraphRag.Ingest.OrderIndependence

/-!
# Display names

An entity is named by the document that introduces it, the first to mention it since it was
last mentioned by none. Types and descriptions are refreshed; the name stays until no document
mentions the entity. So a name outlives the documents that spell it this way exactly where
the last of them goes while another document, with another spelling, still mentions the entity.
-/

namespace LocalGraphRag.Ingest

open Python Relational LocalGraphRag.Graph

section Spelling

/-- The content mentions the entity under the name. -/
def DocContent.Spells (c : DocContent) (id name : Text) : Prop :=
  ∃ e ∈ c.entities, GraphStore.entitySlug e = id ∧ strip e.name = name

/-- The entity is stored under the name. -/
def StoredAs (t : Tables) (id name : Text) : Prop :=
  ∃ e ∈ t.entities, e.id = id ∧ e.name = name

/-- Another document than `d` mentions the entity. -/
def MentionedBeside (docs : Text → Option DocContent) (d id : Text) : Prop :=
  ∃ d' ≠ d, ∃ c ∈ docs d', id ∈ c.slugs

/-- After the operations the entity exists and has the name of the document that
introduced it. -/
inductive IntroducedAs : List DocOp → Text → Text → Prop
  | first {ops : List DocOp} {op : DocOp} {c : DocContent} {id name : Text}
      (hnone : ¬MentionedBeside (lastIndexed ops) op.doc id) (hc : c ∈ op.content)
      (hspells : c.Spells id name) : IntroducedAs (ops ++ [op]) id name
  | kept {ops : List DocOp} {op : DocOp} {id name : Text} (h : IntroducedAs ops id name)
      (hbeside : MentionedBeside (lastIndexed ops) op.doc id) : IntroducedAs (ops ++ [op]) id name

theorem DocContent.Spells.mem_slugs {c : DocContent} {id name : Text} (h : c.Spells id name) :
    id ∈ c.slugs := by
  obtain ⟨e, he, hid, _⟩ := h
  exact DocContent.mem_slugs.mpr ⟨e, he, hid⟩

/-- A content mentions an entity under one name. -/
theorem DocContent.Spells.unique {c : DocContent} {id name name' : Text}
    (h : c.Spells id name) (h' : c.Spells id name') : name = name' := by
  obtain ⟨e, he, hid, rfl⟩ := h
  obtain ⟨e', he', hid', rfl⟩ := h'
  rw [List.inj_on_of_nodup_map c.slugs_nodup he he' (hid.trans hid'.symm)]

end Spelling

section Steps
variable {docs : Text → Option DocContent} {t : Tables} {d id name : Text}

/-- What the rows of the other documents keep are the entities that these mention. -/
theorem Reflects.exists_deleteFileRows_iff (h : Reflects docs t) :
    (∃ e ∈ (t.deleteFileRows d).entities, e.id = id) ↔ MentionedBeside docs d id := by
  rw [(h.deleteFileRows d).entities]
  constructor
  · intro hmention
    obtain ⟨m, hm, rfl⟩ := hmention
    obtain ⟨hm, hmd⟩ := (mem_deleteFileRows_mentions t d m).mp hm
    obtain ⟨c, hc, hmc⟩ := (h.mentions m).mp hm
    exact ⟨m.sourceDoc, hmd, c, hc, (DocContent.mem_slugs_iff_mentioned _).mpr ⟨m, hmc, rfl⟩⟩
  · intro hbeside
    obtain ⟨d', hd', c, hc, hid⟩ := hbeside
    obtain ⟨e, he, rfl⟩ := DocContent.mem_slugs.mp hid
    have hm : GraphStore.mentionRow d' e ∈ t.entityMentions :=
      (h.mentions _).mpr ⟨c, hc, List.mem_map_of_mem he⟩
    exact ⟨_, (mem_deleteFileRows_mentions t d _).mpr ⟨hm, hd'⟩,
      GraphStore.mentionRow_entityId d' e⟩

/-- They keep their names. -/
theorem Reflects.storedAs_deleteFileRows (h : Reflects docs t) :
    StoredAs (t.deleteFileRows d) id name ↔ MentionedBeside docs d id ∧ StoredAs t id name := by
  constructor
  · intro hstored
    obtain ⟨e, he, rfl, rfl⟩ := hstored
    obtain ⟨x, hx, hid, hname, _⟩ := Tables.exists_of_mem_deleteFileRows_entities d t he
    exact ⟨h.exists_deleteFileRows_iff.mp ⟨e, he, rfl⟩, x, hx, hid.symm, hname.symm⟩
  · intro hboth
    obtain ⟨hbeside, x, hx, rfl, rfl⟩ := hboth
    obtain ⟨e, he, hid⟩ := h.exists_deleteFileRows_iff.mpr hbeside
    obtain ⟨y, hy, hyid, hyname, _⟩ := Tables.exists_of_mem_deleteFileRows_entities d t he
    have hsame := t.entities.eq_of_key hy hx (hyid.symm.trans hid)
    exact ⟨e, he, hid, hyname.trans (congrArg EntityRow.name hsame)⟩

/-- A document names the entities that are not there yet. -/
theorem storedAs_indexRows (c : DocContent) : StoredAs (indexRows d c t) id name ↔
    StoredAs t id name ∨ (∀ e ∈ t.entities, e.id ≠ id) ∧ c.Spells id name := by
  have hinserted : StoredAs (indexRows d c t) id name ↔
      ∃ x ∈ t.entities.insertAllOrIgnore (newEntityRows c), x.id = id ∧ x.name = name := by
    constructor
    · intro hstored
      obtain ⟨e, he, rfl, rfl⟩ := hstored
      obtain ⟨x, hx, rfl⟩ := (mem_indexRows_refreshed d c).mp he
      refine ⟨x, hx, ?_⟩
      split_ifs <;> exact ⟨rfl, rfl⟩
    · intro hstored
      obtain ⟨x, hx, rfl, rfl⟩ := hstored
      refine ⟨_, (mem_indexRows_refreshed d c).mpr ⟨x, hx, rfl⟩, ?_⟩
      split_ifs <;> exact ⟨rfl, rfl⟩
  have hnew : ∀ x ∈ newEntityRows c, c.Spells x.id x.name := by
    intro x hx
    obtain ⟨e, he, rfl⟩ := List.mem_map.mp hx
    dsimp only
    exact ⟨e, he, rfl, rfl⟩
  rw [hinserted]
  constructor
  · intro hstored
    obtain ⟨x, hx, rfl, rfl⟩ := hstored
    obtain hxt | hxc := Table.mem_or_mem_of_mem_insertAllOrIgnore hx
    · exact Or.inl ⟨x, hxt, rfl, rfl⟩
    · by_cases hold : ∃ y ∈ t.entities, y.id = x.id
      · obtain ⟨y, hy, hid⟩ := hold
        have hsame := Table.eq_of_key _ (Table.mem_insertAllOrIgnore_of_mem hy) hx hid
        exact Or.inl ⟨y, hy, hid, congrArg EntityRow.name hsame⟩
      · exact Or.inr ⟨fun y hy hid => hold ⟨y, hy, hid⟩, hnew x hxc⟩
  · intro hstored
    obtain ⟨e, he, rfl, rfl⟩ | ⟨habsent, hspells⟩ := hstored
    · exact ⟨e, Table.mem_insertAllOrIgnore_of_mem he, rfl, rfl⟩
    · obtain ⟨x, hx, rfl⟩ := (Table.exists_key_insertAllOrIgnore t.entities (newEntityRows c)
        id).mpr (Or.inr ((mem_newEntityRows_ids c).mpr hspells.mem_slugs))
      refine ⟨x, hx, rfl, ?_⟩
      obtain hxt | hxc := Table.mem_or_mem_of_mem_insertAllOrIgnore hx
      · exact absurd rfl (habsent x hxt)
      · exact (hnew x hxc).unique hspells

/-- An operation names the entities that no other document mentions. -/
theorem Reflects.storedAs_apply {s s' : GraphStore} (h : Reflects docs s.toTables) {op : DocOp}
    (happly : op.apply s = .ok s') : StoredAs s'.toTables id name ↔
      (MentionedBeside docs op.doc id ∧ StoredAs s.toTables id name) ∨
        ¬MentionedBeside docs op.doc id ∧ ∃ c ∈ op.content, c.Spells id name := by
  cases op with
  | index d c =>
      have habsent : (∀ e ∈ (s.toTables.deleteFileRows d).entities, e.id ≠ id) ↔
          ¬MentionedBeside docs d id := by
        rw [← h.exists_deleteFileRows_iff]
        simp
      rw [DocOp.apply_index happly, storedAs_indexRows, h.storedAs_deleteFileRows, habsent]
      simp [DocOp.doc, DocOp.content]
  | deleteFileData d =>
      rw [GraphStore.deleteFileData_tables happly, h.storedAs_deleteFileRows]
      simp [DocOp.doc, DocOp.content]
  | purgeFile d =>
      have hcached : StoredAs ((s.toTables.deleteFileRows d).deleteCached d) id name ↔
          StoredAs (s.toTables.deleteFileRows d) id name := Iff.rfl
      rw [GraphStore.purgeFile_tables happly, hcached, h.storedAs_deleteFileRows]
      simp [DocOp.doc, DocOp.content]

end Steps

section Runs
variable {ops : List DocOp} {op : DocOp} {s : GraphStore} {id name : Text}

theorem not_introducedAs_nil : ¬IntroducedAs [] id name := by
  intro h
  generalize hl : [] = l at h
  cases h with
  | first hnone hc hspells => simp at hl
  | kept h hbeside => simp at hl

theorem introducedAs_concat : IntroducedAs (ops ++ [op]) id name ↔
    (MentionedBeside (lastIndexed ops) op.doc id ∧ IntroducedAs ops id name) ∨
      ¬MentionedBeside (lastIndexed ops) op.doc id ∧ ∃ c ∈ op.content, c.Spells id name := by
  constructor
  · intro h
    generalize hl : ops ++ [op] = l at h
    cases h with
    | first hnone hc hspells =>
        obtain ⟨rfl, hop⟩ := List.append_inj' hl rfl
        cases hop
        exact Or.inr ⟨hnone, _, hc, hspells⟩
    | kept h hbeside =>
        obtain ⟨rfl, hop⟩ := List.append_inj' hl rfl
        cases hop
        exact Or.inl ⟨hbeside, h⟩
  · intro h
    obtain ⟨hbeside, h⟩ | ⟨hnone, c, hc, hspells⟩ := h
    · exact .kept h hbeside
    · exact .first hnone hc hspells

/-- Entities are stored under the names they were introduced with. -/
theorem introducedAs_iff_storedAs (hfresh : FreshIds ops) (h : applyOps ops = .ok s) :
    IntroducedAs ops id name ↔ StoredAs s.toTables id name := by
  induction ops using List.reverseRecOn generalizing s with
  | nil =>
      cases h
      constructor
      · intro h
        exact absurd h not_introducedAs_nil
      · intro hstored
        obtain ⟨e, he, _⟩ := hstored
        exact absurd he (Table.notMem_empty e)
  | append_singleton ops op ih =>
      obtain ⟨s₁, hops, happly⟩ := applyOps_concat.mp h
      obtain ⟨hbefore, _⟩ := hfresh.prefix
      rw [introducedAs_concat, ih hbefore hops,
        (Reflects.applyOps hbefore hops).storedAs_apply happly]

/-- The names of the entities are those under which indexed documents mention them. -/
def NamesCurrent (docs : Text → Option DocContent) (t : Tables) : Prop :=
  ∀ e ∈ t.entities, ∃ d, ∃ c ∈ docs d, c.Spells e.id e.name

/-- The operation takes away the last document that spells an entity as it was introduced,
while another one still mentions it. -/
def TakesLastSpelling (ops : List DocOp) (op : DocOp) : Prop :=
  ∃ id name, IntroducedAs ops id name ∧ MentionedBeside (lastIndexed ops) op.doc id ∧
    (∃ c ∈ lastIndexed ops op.doc, c.Spells id name) ∧
    (∀ d ≠ op.doc, ∀ c ∈ lastIndexed ops d, ¬c.Spells id name) ∧
    ∀ c ∈ op.content, ¬c.Spells id name

/-- What is spelled after an operation is spelled by its document or by another. -/
theorem exists_spells_concat : (∃ d, ∃ c ∈ lastIndexed (ops ++ [op]) d, c.Spells id name) ↔
    (∃ c ∈ op.content, c.Spells id name) ∨
      ∃ d ≠ op.doc, ∃ c ∈ lastIndexed ops d, c.Spells id name := by
  simp only [lastIndexed_concat, DocOp.track, exists_mem_update]
  constructor
  · intro h
    obtain ⟨d, ⟨_, hc⟩ | ⟨hd, hc⟩⟩ := h
    · exact Or.inl hc
    · exact Or.inr ⟨d, hd, hc⟩
  · intro h
    obtain hc | ⟨d, hd, hc⟩ := h
    · exact ⟨op.doc, Or.inl ⟨rfl, hc⟩⟩
    · exact ⟨d, Or.inr ⟨hd, hc⟩⟩

/-- The names introduced are spelled by indexed documents. -/
def IntroductionsSpelled (ops : List DocOp) : Prop :=
  ∀ id name, IntroducedAs ops id name → ∃ d, ∃ c ∈ lastIndexed ops d, c.Spells id name

theorem namesCurrent_iff_introducedAs (hfresh : FreshIds ops) (h : applyOps ops = .ok s) :
    NamesCurrent (lastIndexed ops) s.toTables ↔ IntroductionsSpelled ops := by
  constructor
  · intro hcurrent id name hname
    obtain ⟨e, he, rfl, rfl⟩ := (introducedAs_iff_storedAs hfresh h).mp hname
    exact hcurrent e he
  · intro hall e he
    exact hall e.id e.name ((introducedAs_iff_storedAs hfresh h).mpr ⟨e, he, rfl, rfl⟩)

theorem IntroductionsSpelled.concat (h : IntroductionsSpelled ops)
    (hop : ¬TakesLastSpelling ops op) : IntroductionsSpelled (ops ++ [op]) := by
  intro id name hname
  rw [exists_spells_concat]
  obtain ⟨hbeside, hname⟩ | ⟨_, hspells⟩ := introducedAs_concat.mp hname
  · by_contra hnone
    obtain ⟨hnew, hother⟩ := not_or.mp hnone
    obtain ⟨d, c, hc, hspells⟩ := h id name hname
    by_cases hd : d = op.doc
    · subst hd
      apply hop
      exact ⟨id, name, hname, hbeside, ⟨c, hc, hspells⟩,
        fun d hd c hc hs => hother ⟨d, hd, c, hc, hs⟩, fun c hc hs => hnew ⟨c, hc, hs⟩⟩
    · exact hother ⟨d, hd, c, hc, hspells⟩
  · exact Or.inl hspells

theorem not_takesLastSpelling (h : IntroductionsSpelled (ops ++ [op])) :
    ¬TakesLastSpelling ops op := by
  intro htakes
  obtain ⟨id, name, hname, hbeside, _, hother, hnew⟩ := htakes
  obtain ⟨c, hc, hspells⟩ | ⟨d, hd, c, hc, hspells⟩ :=
    exists_spells_concat.mp (h id name (.kept hname hbeside))
  · exact hnew c hc hspells
  · exact hother d hd c hc hspells

theorem introductionsSpelled_iff : (∀ done, done <+: ops → IntroductionsSpelled done) ↔
    ∀ done op, done ++ [op] <+: ops → ¬TakesLastSpelling done op := by
  constructor
  · intro h done op hdone
    exact not_takesLastSpelling (h _ hdone)
  · intro h done hdone
    induction done using List.reverseRecOn with
    | nil =>
        intro id name hname
        exact absurd hname not_introducedAs_nil
    | append_singleton done op ih =>
        exact (ih ((List.prefix_append done [op]).trans hdone)).concat (h done op hdone)

theorem FreshIds.of_prefix {done : List DocOp} (h : FreshIds ops) (hdone : done <+: ops) :
    FreshIds done := by
  obtain ⟨later, rfl⟩ := hdone
  intro before op rest hsplit
  exact h before op (rest ++ later) (by simp [hsplit])

/-- Before a run ended, every earlier operation had completed. -/
theorem exists_applyOps_of_prefix {done : List DocOp} (h : applyOps ops = .ok s)
    (hdone : done <+: ops) : ∃ s₁, applyOps done = .ok s₁ := by
  obtain ⟨later, rfl⟩ := hdone
  induction later using List.reverseRecOn generalizing s with
  | nil => exact ⟨s, by simpa using h⟩
  | append_singleton later op ih =>
      rw [← List.append_assoc] at h
      obtain ⟨s₁, hbefore, _⟩ := applyOps_concat.mp h
      exact ih hbefore

/-- After every operation of a run the names are current if and only if no operation takes
away the last spelling of a name that it leaves in place. -/
theorem namesCurrent_iff (hfresh : FreshIds ops) (h : applyOps ops = .ok s) :
    (∀ done s', done <+: ops → applyOps done = .ok s' →
      NamesCurrent (lastIndexed done) s'.toTables) ↔
      ∀ done op, done ++ [op] <+: ops → ¬TakesLastSpelling done op := by
  rw [← introductionsSpelled_iff]
  constructor
  · intro hall done hdone
    obtain ⟨s', hs'⟩ := exists_applyOps_of_prefix h hdone
    exact (namesCurrent_iff_introducedAs (hfresh.of_prefix hdone) hs').mp (hall done s' hdone hs')
  · intro hall done s' hdone hs'
    exact (namesCurrent_iff_introducedAs (hfresh.of_prefix hdone) hs').mpr (hall done hdone)

theorem namesCurrent_iff_editedGuide :
    (∀ done s', done <+: editedGuide → applyOps done = .ok s' →
      NamesCurrent (lastIndexed done) s'.toTables) ↔
      ∀ done op, done ++ [op] <+: editedGuide → ¬TakesLastSpelling done op := by
  have hok : (applyOps editedGuide).toBool = true := by decide +kernel
  have hfresh : FreshIds editedGuide :=
    freshIds_of_owner (List.take 1) (by simp [editedGuide, DocOp.content, DocOp.doc]; decide)
  cases h : applyOps editedGuide with
  | error e => rw [h] at hok; cases hok
  | ok s => exact namesCurrent_iff hfresh h

end Runs

section Stranded

/-- The guide and the notes are indexed, then the guide is deleted. -/
def deletedGuide : List DocOp :=
  [.index (text "g") sampleGuide, .index (text "n") sampleNotes, .deleteFileData (text "g")]

/-- The spelling of the deleted guide stays, though the notes spell it otherwise. -/
theorem not_namesCurrent_deletedGuide : ∃ s, FreshIds deletedGuide ∧
    applyOps deletedGuide = .ok s ∧ StoredAs s.toTables (text "store") (text "Store") ∧
    ¬NamesCurrent (lastIndexed deletedGuide) s.toTables := by
  have hok : (applyOps deletedGuide).toBool = true := by decide +kernel
  have hfresh : FreshIds deletedGuide :=
    freshIds_of_owner (List.take 1) (by simp [deletedGuide, DocOp.content, DocOp.doc]; decide)
  have hguide : IntroducedAs ([] ++ [.index (text "g") sampleGuide]) (text "store")
      (text "Store") := by
    apply IntroducedAs.first _ rfl
    · exact ⟨_, List.mem_cons_self, by decide +kernel, by decide +kernel⟩
    · intro hbeside
      obtain ⟨d, _, c, hc, _⟩ := hbeside
      cases hc
  have hnotes : IntroducedAs ([.index (text "g") sampleGuide] ++
      [.index (text "n") sampleNotes]) (text "store") (text "Store") :=
    hguide.kept ⟨text "g", by decide, sampleGuide, lastIndexed_concat_doc [] _,
      by decide +kernel⟩
  have hdeleted : IntroducedAs ([.index (text "g") sampleGuide, .index (text "n") sampleNotes] ++
      [.deleteFileData (text "g")]) (text "store") (text "Store") :=
    hnotes.kept ⟨text "n", by decide, sampleNotes, lastIndexed_concat_doc [_] _,
      by decide +kernel⟩
  have hunspelled : ¬∃ e ∈ sampleNotes.entities, GraphStore.entitySlug e = text "store" ∧
      strip e.name = text "Store" := by decide +kernel
  cases h : applyOps deletedGuide with
  | error e => rw [h] at hok; cases hok
  | ok s =>
    have hstored := (introducedAs_iff_storedAs hfresh h).mp hdeleted
    refine ⟨s, hfresh, rfl, hstored, ?_⟩
    intro hcurrent
    obtain ⟨d, c, hc, hspells⟩ :=
      (namesCurrent_iff_introducedAs hfresh h).mp hcurrent _ _ hdeleted
    simp only [lastIndexed, deletedGuide, List.foldl_cons, List.foldl_nil, DocOp.track,
      DocOp.doc, DocOp.content, Function.update_apply] at hc
    split_ifs at hc
    · cases hc
    · cases hc
      exact hunspelled hspells
    · cases hc

end Stranded

end LocalGraphRag.Ingest
