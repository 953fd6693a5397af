import LocalGraphRag.Ingest.Indexing

/-!
# What one call can do

One inversion lemma for each kind of call: the outcomes it can have under any
choice of the environment, and the world it leaves.
-/

namespace LocalGraphRag.Ingest

open Python Relational LocalGraphRag.Graph Effects

/-- The calls that change a table or a point. -/
def Call.writes : Call → Bool
  | .write _ | .upsertEntities _ _ | .deletePoints _ | .upsertPoints _ => true
  | _ => false

section Steps
variable (w : World)

/-- A write commits, or it raises and changes nothing. -/
theorem step_write (op : StoreWrite) (c : Choice) :
    (∃ s', op.apply w.store = .ok s' ∧
      w.step (.write op) c = (.ok (), { w with store := s' })) ∨
      ∃ e, w.step (.write op) c = (.error e, w) := by
  cases c with
  | done =>
      cases h : op.apply w.store with
      | ok s' => exact Or.inl ⟨s', rfl, by simp [World.step, World.commit, h, Except.map]⟩
      | error e => exact Or.inr ⟨_, by simp [World.step, World.commit, h, Except.map]; rfl⟩
  | _ => exact Or.inr ⟨.call, rfl⟩

theorem step_upsertEntities (entities : List Entity) (p : Text) (c : Choice) :
    (∃ slugs s', w.store.upsertEntities entities p = .ok (slugs, s') ∧
      w.step (.upsertEntities entities p) c = (.ok slugs, { w with store := s' })) ∨
      ∃ e, w.step (.upsertEntities entities p) c = (.error e, w) := by
  cases c with
  | done =>
      cases h : w.store.upsertEntities entities p with
      | ok r => exact Or.inl ⟨r.1, r.2, rfl, by simp [World.step, World.commit, h]⟩
      | error e => exact Or.inr ⟨.store e, by simp [World.step, World.commit, h]⟩
  | _ => exact Or.inr ⟨.call, rfl⟩

/-- A Qdrant deletion reaches some of its points, and all of them if it returns. -/
theorem step_deletePoints (ids : List Text) (c : Choice) :
    w.step (.deletePoints ids) c = (.ok (), w.deletePoints ids.toFinset) ∨
      (∃ e reached, w.step (.deletePoints ids) c =
        (.error e, w.deletePoints (ids.toFinset ∩ reached))) ∨
      ∃ e, w.step (.deletePoints ids) c = (.error e, w) := by
  cases c with
  | done => exact Or.inl rfl
  | applied reached => exact Or.inr (Or.inl ⟨.call, reached, rfl⟩)
  | _ => exact Or.inr (Or.inr ⟨.call, rfl⟩)

theorem step_upsertPoints (points : List Point) (c : Choice) :
    w.step (.upsertPoints points) c = (.ok (), w.upsertPoints points) ∨
      (∃ e reached, w.step (.upsertPoints points) c =
        (.error e, w.upsertPoints (points.filter fun x => x.id ∈ (reached : Finset Text)))) ∨
      ∃ e, w.step (.upsertPoints points) c = (.error e, w) := by
  cases c with
  | done => exact Or.inl rfl
  | applied reached => exact Or.inr (Or.inl ⟨.call, reached, rfl⟩)
  | _ => exact Or.inr (Or.inr ⟨.call, rfl⟩)

theorem query_snd {α : Type} (parameters : List Text) (a : α) :
    (w.query parameters a).2 = w := by
  unfold World.query
  split <;> rfl

theorem query_fst {α : Type} {parameters : List Text} {a r : α}
    (h : (w.query parameters a).1 = .ok r) : r = a := by
  unfold World.query at h
  split at h <;> cases h
  rfl

/-- No other call changes a table or a point. -/
theorem step_keeps {o : Call} (ho : o.writes = false) (c : Choice) :
    (w.step o c).2.store = w.store ∧ (w.step o c).2.points = w.points := by
  cases o with
  | write | upsertEntities | deletePoints | upsertPoints => cases ho
  | getHash | getChunksForFile | getCachedExtraction =>
      cases c <;> first | exact ⟨rfl, rfl⟩ | simp only [World.step, query_snd, and_self]
  | newPointIds n =>
      cases c with
      | ids l =>
          simp only [World.step]
          split_ifs <;> exact ⟨rfl, rfl⟩
      | _ => exact ⟨rfl, rfl⟩
  | _ => cases c <;> exact ⟨rfl, rfl⟩

theorem step_view {o : Call} (ho : o.writes = false) (c : Choice) (q : Text) :
    (w.step o c).2.view q = w.view q :=
  view_congr (step_keeps w ho c).1 (step_keeps w ho c).2 q

/-- The bytes a hash is taken of are remembered. -/
theorem step_hashFile {p : Text} {c : Choice} {b : Bytes}
    (h : (w.step (.hashFile p) c).1 = .ok b) :
    (w.step (.hashFile p) c).2.hashed = some (p, b) := by
  cases c with
  | bytes b' =>
      cases h
      rfl
  | _ => cases h

theorem step_readFile {p : Text} {c : Choice} {b : Bytes}
    (h : (w.step (.readFile p) c).1 = .ok b) : c = .bytes b := by
  cases c with
  | bytes b' =>
      cases h
      rfl
  | _ => cases h

theorem step_generate {payload : Json} {keepAlive : Text} {c : Choice} {r : Text}
    (h : (w.step (.generate payload keepAlive) c).1 = .ok r) : c = .reply r := by
  cases c with
  | reply r' =>
      cases h
      rfl
  | _ => cases h

theorem step_embedSlice {texts : List Text} {c : Choice} {v : List Embedding}
    (h : (w.step (.embedSlice texts) c).1 = .ok v) : c = .vectors v := by
  cases c with
  | vectors v' =>
      cases h
      rfl
  | _ => cases h

theorem step_newPointIds {n : Nat} {c : Choice} {l : List Text}
    (h : (w.step (.newPointIds n) c).1 = .ok l) :
    l.length = n ∧ l.Nodup ∧ ∀ id ∈ l, w.FreshId id := by
  cases c with
  | ids l' =>
      simp only [World.step] at h
      split_ifs at h with hl
      cases h
      exact hl
  | _ => cases h

theorem step_getChunksForFile {p : Text} {c : Choice} {l : List Text}
    (h : (w.step (.getChunksForFile p) c).1 = .ok l) :
    l = w.store.getChunksForFile p := by
  cases c with
  | done => exact query_fst w h
  | _ => cases h

theorem step_getHash_snd (p : Text) (c : Choice) : (w.step (.getHash p) c).2 = w := by
  cases c with
  | done => exact query_snd w _ _
  | _ => rfl

theorem step_getCachedExtraction {p digest : Text} {i : Nat} {c : Choice} {r : Option Text}
    (h : (w.step (.getCachedExtraction p i digest) c).1 = .ok r) :
    r = w.store.getCachedExtraction p i digest := by
  cases c with
  | done => exact query_fst w h
  | _ => cases h

theorem step_listAllPaths {c : Choice} {r : Finset Text}
    (h : (w.step .listAllPaths c).1 = .ok r) : r = w.store.listAllPaths := by
  cases c with
  | done =>
      cases h
      rfl
  | _ => cases h

end Steps

end LocalGraphRag.Ingest
