import LocalGraphRag.Ingest.CleanupSafety
import LocalGraphRag.Ingest.WriteSafety

/-!
# Crash safety of the indexer

Every program of the indexer keeps a discipline's invariant after each of its
calls, so the invariant holds in every state that any sequence of runs,
failures and crashes can reach.
-/

namespace LocalGraphRag.Ingest

open Python Relational LocalGraphRag.Graph Effects

section Programs
variable {lib : Builtins} {D : Discipline lib} {w : World} {p : Text} {cfg : Settings}

/-- The bytes that `_hash_file` hashed are remembered. -/
theorem hashFile_establishes (hw : D.Inv w) :
    Leaves D (hashFile lib p) (fun digest w' =>
      ∀ d ∈ digest, ∃ b, d = lib.sha256 b ∧ w'.hashed = some (p, b)) w := by
  unfold hashFile
  refine safe_orElse (safe_read hw rfl ?_ ?_)
  · intro e w' hw' _ _
    refine ⟨hw', ?_⟩
    rintro _ ⟨⟩ _ ⟨⟩
  · intro b c w' _ hr hw' _ _
    refine ⟨hw', ?_⟩
    rintro _ ⟨⟩ d ⟨⟩
    have hhashed := step_hashFile w (p := p) (c := c) (b := b) (by rw [hr])
    rw [hr] at hhashed
    exact ⟨b, rfl, hhashed⟩

/-- `_read_file` reads bytes the guard admits. -/
theorem readFile_establishes (hw : D.Inv w) :
    Leaves D (readFile lib p) (fun content _ => ∀ t ∈ content, ∃ b', t = lib.decode b' ∧
      ∀ b, w.hashed = some (p, b) → D.SameRead p b b') w := by
  unfold readFile
  refine safe_orElse (safe_read hw rfl ?_ ?_)
  · intro e w' hw' _ _
    refine ⟨hw', ?_⟩
    rintro _ ⟨⟩ _ ⟨⟩
  · intro b' c w' hc hr hw' _ _
    refine ⟨hw', ?_⟩
    rintro _ ⟨⟩ t ⟨⟩
    have hbytes := step_readFile w (p := p) (c := c) (b := b') (by rw [hr])
    exact ⟨b', rfl, fun b hb => D.sameRead (hbytes ▸ hc) hb⟩

/-- Embedding returns the answers to its requests. -/
theorem embedBatch_establishes (hw : D.Inv w) (texts : List Text) :
    Leaves D (embedBatch cfg texts)
      (fun vectors _ => Embedded D.ollama cfg texts vectors) w := by
  unfold embedBatch
  refine establishes_ofExcept_bind hw fun prepared hprepared => ?_
  refine safe_foldlM
    (fun done vectors w' => D.Inv w' ∧
      ∃ answers, List.Forall₂ D.ollama.Embeds done answers ∧ vectors = answers.flatten)
    (fun _ w' => D.Inv w') ⟨hw, [], List.Forall₂.nil, rfl⟩ ?_ ?_
  · rintro (e | vectors) w' hpost
    · exact ⟨hpost, by simp⟩
    · obtain ⟨hw', answers, hall, rfl⟩ := hpost
      refine ⟨hw', ?_⟩
      rintro _ ⟨⟩
      exact ⟨prepared, answers, hprepared, hall, rfl⟩
  · rintro done batch - - vectors w₁ ⟨hw₁, answers, hall, rfl⟩
    refine safe_read hw₁ rfl (fun e w₂ hw₂ _ _ => hw₂) fun embeddings c w₂ hc hr hw₂ _ _ => ?_
    have hanswer := step_embedSlice w₁ (v := embeddings) (by rw [hr])
    split_ifs
    · exact hw₂
    · exact hw₂
    · refine ⟨hw₂, answers ++ [embeddings], ?_, by simp⟩
      exact List.rel_append hall (by simpa using D.embeds (hanswer ▸ hc))

/-- A file that is reported as indexed holds exactly what an indexing of the content
that was read writes. -/
def Reported (lib : Builtins) (ollama : Ollama) (cfg : Settings) (p : Text) (report : Report)
    (w : World) : Prop :=
  ∀ digest content vectors ids result,
    report = .indexed digest content vectors ids result →
      ∃ x : Indexing lib ollama cfg p content,
        x.vectors = vectors ∧ x.ids = ids ∧ x.result = result ∧ ∃ cached,
          w.view p = x.view cached (if result.hadFailure then none else some digest)

/-- A file without chunks is cleaned, and fingerprinted as empty. -/
theorem emptied_establishes (hw : D.Inv w) {digest : Text}
    (hempty : ∀ cached, D.Kept p (FileView.bare cached (some digest))) :
    Leaves D (do
        cleanupChangedFile p
        Prog.perform (Call.write (.upsertHash p digest))
        return Report.skipped) (Reported lib D.ollama cfg p) w := by
  refine (cleanupChangedFile_establishes hw).bind fun _ w₁ hw₁ hview₁ => ?_
  refine (write_establishes (FileView.bare (w.view p).cached (some digest)) hw₁
    (Discipline.fileInv_bare (hw p).cacheSound (hempty _)) fun s₂ hs₂ => ?_).bind
      fun _ w₂ hw₂ _ => establishes_ret hw₂ (by simp [Reported])
  have hmarked := upsertHash_view hs₂
  rwa [hview₁] at hmarked

/-- The new version of a file replaces what the cleaning leaves. -/
theorem replaced_establishes (hcfg : D.Uses cfg) (hw : D.Inv w) {b b' : Bytes}
    (hread : D.SameRead p b b') {chunked : List (Text × Option Text)}
    (hchunked : chunkFile cfg p (lib.decode b') = .ok chunked) (hnil : chunked ≠ [])
    {vectors : List Embedding}
    (hembedded : Embedded D.ollama cfg (chunked.map Prod.fst) vectors) :
    Leaves D (do
        cleanupChangedFile p
        let ids ← Prog.perform (Call.newPointIds chunked.length)
        let points ← Prog.ofExcept (buildPoints p chunked vectors ids)
        let result ← writeIndexData lib cfg p (chunked.map Prod.fst) points (lib.sha256 b)
        return Report.indexed (lib.sha256 b) (lib.decode b') vectors ids result)
      (Reported lib D.ollama cfg p) w := by
  refine (cleanupChangedFile_establishes hw).bind fun _ w₁ hw₁ hview₁ => ?_
  refine (read_establishes hw₁ rfl).bind fun ids w₂ hw₂ hanswer => ?_
  obtain ⟨hview₂, hstore₂, c₂, -, hstep₂⟩ := hanswer
  obtain ⟨hlen, hnodup, hfresh⟩ := step_newPointIds w₁ (l := ids) (by rw [hstep₂])
  have hpoints₂ : w₂.points = w₁.points := by
    have hkeep := (step_keeps w₁ (o := .newPointIds chunked.length) rfl c₂).2
    rwa [hstep₂] at hkeep
  refine establishes_ofExcept_bind hw₂ fun points hpoints => ?_
  obtain rfl := buildPoints_ids hpoints hlen
  have hne : points ≠ [] := by
    rintro rfl
    exact hnil (List.length_eq_zero_iff.mp hlen.symm)
  have hindexing : ∀ result pairs,
      Extracted lib D.ollama cfg p (chunked.map Prod.fst) result →
      matchEntityChunks lib (chunked.map Prod.fst) (points.map Point.id) result.entities
        (result.entities.map GraphStore.entitySlug) = .ok pairs →
      ∃ x : Indexing lib D.ollama cfg p (lib.decode b'), x.vectors = vectors ∧
        x.ids = points.map Point.id ∧ x.result = result ∧ x.points = points ∧ x.pairs = pairs :=
    fun result pairs hext hpairs => ⟨⟨chunked, vectors, _, points, result, pairs, hchunked, hnil,
      hembedded, hnodup, hlen, hpoints, hext, hpairs⟩, rfl, rfl, rfl, rfl, rfl⟩
  refine (writeIndexData_establishes hw₂ ((hview₂ p).trans hview₁) hne hnodup
    (fun x hx => ((mem_buildPoints hpoints x).mp hx).1) (fun id hid => ?_)
    (by rw [hlen, List.length_map]) fun result pairs cached' hext hpairs hfailure => ?_).bind
      fun result w₃ hw₃ hresult => establishes_ret hw₃ ?_
  · rw [World.FreshId, hstore₂, hpoints₂]
    exact hfresh id hid
  · obtain ⟨x, -, -, rfl, rfl, rfl⟩ := hindexing result pairs hext hpairs
    exact D.written cached' hcfg hread x hfailure
  · rintro _ _ _ _ _ ⟨⟩
    obtain ⟨hext, pairs, cached', hpairs, hview₃⟩ := hresult
    obtain ⟨x, hxv, hxi, hxr, hxp, hxl⟩ := hindexing result pairs hext hpairs
    refine ⟨x, hxv, hxi, hxr, cached', ?_⟩
    rw [hview₃, Indexing.view, hxr, hxp, hxl]

/-- The body of `_index_file` keeps the invariant, and reports what the file holds. -/
theorem indexFileReport_establishes (hcfg : D.Uses cfg) (hw : D.Inv w) :
    Leaves D (indexFileReport lib cfg p) (Reported lib D.ollama cfg p) w := by
  unfold indexFileReport
  refine (hashFile_establishes hw).bind fun digest w₁ hw₁ hdigest => ?_
  cases digest with
  | none => exact establishes_ret hw₁ (by simp [Reported])
  | some digest =>
  obtain ⟨b, rfl, hhashed⟩ := hdigest digest rfl
  refine (read_establishes hw₁ rfl).bind fun stored w₂ hw₂ hanswer => ?_
  obtain ⟨-, -, c, -, hstep⟩ := hanswer
  have hsame := step_getHash_snd w₁ p c
  rw [hstep] at hsame
  subst hsame
  split_ifs
  · exact establishes_ret hw₂ (by simp [Reported])
  refine (readFile_establishes hw₂).bind fun content w₃ hw₃ hcontent => ?_
  cases content with
  | none => exact establishes_ret hw₃ (by simp [Reported])
  | some content =>
  obtain ⟨b', rfl, hread⟩ := hcontent content rfl
  refine establishes_ofExcept_bind hw₃ fun chunked hchunked => ?_
  split_ifs with hnil
  · subst hnil
    exact emptied_establishes hw₃ fun cached => D.emptied cached hcfg (hread b hhashed) hchunked
  · exact (embedBatch_establishes hw₃ _).bind fun vectors w₄ hw₄ hembedded =>
      replaced_establishes hcfg hw₄ (hread b hhashed) hchunked hnil hembedded

/-- Every run of `main` keeps the invariant, wherever it crashes. -/
theorem main_keeps (hcfg : D.Uses cfg) (hw : D.Inv w) :
    Keeps D (main lib cfg) (fun _ w' => D.Inv w') w := by
  unfold main
  refine safe_read hw rfl (fun e w₁ hw₁ _ _ => hw₁) fun scan c w₁ _ _ hw₁ _ _ => ?_
  refine safe_bind (safe_mono (stalePhase_keeps hw₁ scan.1 scan.2) ?_)
  rintro r w₂ ⟨hw₂, -⟩
  cases r with
  | error e => exact hw₂
  | ok _ =>
      rw [thenPost_ok]
      refine safe_foldlM (fun _ _ w' => D.Inv w') (fun _ w' => D.Inv w') hw₂ ?_ ?_
      · rintro (e | _) w' hpost <;> exact hpost
      · rintro - p - - outcomes w₃ hw₃
        refine safe_bind (safe_orElse (safe_bind ?_))
        apply safe_mono (indexFileReport_establishes (p := p) hcfg hw₃)
        rintro (e | report) w₄ ⟨hw₄, -⟩ <;> exact hw₄

end Programs

section Lifetimes
variable {lib : Builtins} (D : Discipline lib)

/-- The runs of the indexer, each with its settings and its script. -/
abbrev Runs := List (Settings × List Choice)

/-- The lifetime of a store indexed by these runs. -/
def lifetime (lib : Builtins) (runs : Runs) :
    Lifetime Call Call.Ret Failure (List Outcome) Choice :=
  runs.map fun r => (main lib r.1, r.2)

/-- A world that some runs reach from empty stores; the last may have crashed. -/
def Reachable (lib : Builtins) (w : World) : Prop :=
  ∃ runs : Runs, (lifetime lib runs).final World.step World.empty = w

theorem view_empty (p : Text) : World.empty.view p = FileView.bare ∅ none := by
  refine FileView.ext ?_ ?_ ?_ ?_ ?_ ?_ rfl
  all_goals rfl

variable {D}

theorem Discipline.inv_empty : D.Inv World.empty := by
  intro p
  rw [view_empty]
  exact fileInv_bare (by simp [FileView.CacheSound, FileView.bare]) (D.unmarked rfl)

/-- The invariant holds after any runs whose transitions the guard admits. -/
theorem Discipline.inv_lifetime (runs : Runs) (huses : ∀ r ∈ runs, D.Uses r.1)
    (hG : Guarded D.guard ((lifetime lib runs).transitions World.step World.empty)) :
    D.Inv ((lifetime lib runs).final World.step World.empty) := by
  refine Lifetime.invariant (fun r hr w hw => ?_) hG D.inv_empty
  obtain ⟨s, hs, rfl⟩ := List.mem_map.mp hr
  exact main_keeps (huses s hs) hw

/-- The invariant holds in every state on the way. -/
theorem Discipline.inv_transitions (runs : Runs) (huses : ∀ r ∈ runs, D.Uses r.1)
    (hG : Guarded D.guard ((lifetime lib runs).transitions World.step World.empty)) :
    ∀ t ∈ (lifetime lib runs).transitions World.step World.empty,
      D.Inv t.before ∧ D.Inv (t.after World.step) := by
  refine Lifetime.invariant_transitions (fun r hr w hw => ?_) hG
    D.inv_empty
  obtain ⟨s, hs, rfl⟩ := List.mem_map.mp hr
  exact main_keeps (huses s hs) hw

variable (lib) in
/-- Nothing is assumed of the environment, and nothing claimed of fingerprints. -/
def Discipline.unrestricted : Discipline lib where
  guard := fun _ _ _ => True
  ollama := ⟨fun _ _ => True, fun _ _ => True⟩
  SameRead := fun _ _ _ => True
  Uses := fun _ => True
  Kept := fun _ _ => True
  generates := fun _ => trivial
  embeds := fun _ => trivial
  sameRead := fun _ _ => trivial
  unmarked := fun _ => trivial
  recache := fun _ _ => trivial
  drop := fun _ _ _ => trivial
  emptied := fun _ _ _ _ => trivial
  written := fun _ _ _ _ _ => trivial

/-- What needs no assumption holds in every reachable world. -/
theorem Reachable.inv {w : World} (h : Reachable lib w) :
    (Discipline.unrestricted lib).Inv w := by
  obtain ⟨runs, rfl⟩ := h
  exact Discipline.inv_lifetime runs (fun _ _ => trivial) (guarded_true _)

end Lifetimes

end LocalGraphRag.Ingest
