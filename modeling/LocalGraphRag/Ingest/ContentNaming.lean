import LocalGraphRag.Ingest.Searchable

/-!
# A fingerprint names the indexed content

The hash and the text of a file are two reads. As long as both return the same
bytes, the stored data of a fingerprinted file come from a content with that
hash. An edit between the two reads records the hash of one version with the
data of another.
-/

namespace LocalGraphRag.Ingest

open Python Relational LocalGraphRag.Graph Effects

/-- The answers that Ollama gave in these transitions. -/
def answersIn (ts : List (Transition World Call Choice)) : Ollama where
  Generates payload reply :=
    ∃ t ∈ ts, ∃ keepAlive, t.op = .generate payload keepAlive ∧ t.choice = .reply reply
  Embeds texts vectors := ∃ t ∈ ts, t.op = .embedSlice texts ∧ t.choice = .vectors vectors

/-- The stored data of a file come from a content: it has no chunks and nothing is
stored, or all of it is what one indexing wrote, but for vectors deleted since. -/
def DerivedFrom (lib : Builtins) (ollama : Ollama) (cfg : Settings) (p content : Text)
    (v : FileView) : Prop :=
  (chunkFile cfg p content = .ok [] ∧ v = FileView.bare v.cached v.fingerprint) ∨
    ∃ x : Indexing lib ollama cfg p content, ∃ points ⊆ x.points.toFinset,
      v = { x.view v.cached v.fingerprint with points := points }

/-- The fingerprint is the hash of a content that the stored data come from. -/
def NamesContent (lib : Builtins) (ollama : Ollama) (Uses : Settings → Prop) (p : Text)
    (v : FileView) : Prop :=
  ∀ digest, v.fingerprint = some digest → ∃ b, lib.sha256 b = digest ∧
    ∃ cfg, Uses cfg ∧ DerivedFrom lib ollama cfg p (lib.decode b) v

/-- The settings of these runs. -/
def UsedIn (runs : Runs) (cfg : Settings) : Prop := ∃ cs, (cfg, cs) ∈ runs

/-- The bytes read of a file are those that were hashed before. -/
def ReadsHashed (w : World) : Call → Choice → Prop
  | .readFile p, .bytes b' => ∀ hashed ∈ w.hashed, hashed.1 = p → b' = hashed.2
  | _, _ => True

instance (w : World) (o : Call) (c : Choice) : Decidable (ReadsHashed w o c) := by
  unfold ReadsHashed
  split <;> infer_instance

section Stable
variable {lib : Builtins} {ollama : Ollama} {cfg : Settings} {p content : Text}
  {v : FileView}

theorem DerivedFrom.recache (h : DerivedFrom lib ollama cfg p content v)
    (cached : Finset CacheRow) :
    DerivedFrom lib ollama cfg p content { v with cached := cached } := by
  obtain ⟨hnil, hv⟩ | ⟨x, points, hsub, hv⟩ := h
  · rw [hv]
    exact Or.inl ⟨hnil, rfl⟩
  · rw [hv]
    exact Or.inr ⟨x, points, hsub, rfl⟩

theorem DerivedFrom.drop (h : DerivedFrom lib ollama cfg p content v)
    {points : Finset Point} (hpoints : points ⊆ v.points) :
    DerivedFrom lib ollama cfg p content { v with points := points } := by
  obtain ⟨hnil, hv⟩ | ⟨x, kept, hsub, hv⟩ := h
  · rw [hv] at hpoints ⊢
    rw [Finset.subset_empty.mp hpoints]
    exact Or.inl ⟨hnil, rfl⟩
  · rw [hv] at hpoints ⊢
    exact Or.inr ⟨x, points, hpoints.trans hsub, rfl⟩

end Stable

/-- Reads that return what was hashed keep the fingerprints truthful. -/
def Discipline.naming (lib : Builtins) (ollama : Ollama) (Uses : Settings → Prop) :
    Discipline lib where
  guard := fun w o c => ReadsHashed w o c ∧
    (∀ payload keepAlive r, o = .generate payload keepAlive → c = .reply r →
      ollama.Generates payload r) ∧
    ∀ texts v, o = .embedSlice texts → c = .vectors v → ollama.Embeds texts v
  ollama := ollama
  SameRead := fun _ b b' => b' = b
  Uses := Uses
  Kept := NamesContent lib ollama Uses
  generates := fun h => h.2.1 _ _ _ rfl rfl
  embeds := fun h => h.2.2 _ _ rfl rfl
  sameRead := fun h hhashed => h.1 _ hhashed rfl
  unmarked := by
    intro p v hnone digest hdigest
    rw [hnone] at hdigest
    cases hdigest
  recache := by
    intro p v cached hkept digest hdigest
    obtain ⟨b, hb, cfg, hcfg, hderived⟩ := hkept digest hdigest
    exact ⟨b, hb, cfg, hcfg, hderived.recache cached⟩
  drop := by
    intro w ids c p _ hkept digest hdigest
    obtain ⟨points, hsub, hview⟩ := step_deletePoints_view (w := w) ids c p
    rw [hview] at hdigest ⊢
    obtain ⟨b, hb, cfg, hcfg, hderived⟩ := hkept digest hdigest
    exact ⟨b, hb, cfg, hcfg, hderived.drop hsub⟩
  emptied := by
    rintro cfg p b b' cached hcfg rfl hnil digest ⟨⟩
    exact ⟨b', rfl, cfg, hcfg, Or.inl ⟨hnil, rfl⟩⟩
  written := by
    rintro cfg p b b' cached hcfg rfl x hfailure digest ⟨⟩
    exact ⟨b', rfl, cfg, hcfg, Or.inr ⟨x, x.points.toFinset, subset_rfl, rfl⟩⟩

/-- In every state of a lifetime whose reads return the bytes hashed before, each
fingerprint is the hash of a content from which, under settings of one of the
runs and the answers Ollama gave, all stored data of its file come. Where the
hash does not collide, a file is skipped only for the content it was indexed with. -/
theorem fingerprint_names_content (lib : Builtins) (runs : Runs)
    (hreads : Guarded ReadsHashed
      ((lifetime lib runs).transitions World.step World.empty)) :
    ∀ w ∈ (lifetime lib runs).states World.step World.empty, ∀ p,
      NamesContent lib (answersIn ((lifetime lib runs).transitions World.step World.empty))
          (UsedIn runs) p (w.view p) ∧
        ∀ b, w.store.getHash p = some (lib.sha256 b) →
          (∀ b', lib.sha256 b' = lib.sha256 b → b' = b) →
          ∃ cfg, UsedIn runs cfg ∧ DerivedFrom lib
            (answersIn ((lifetime lib runs).transitions World.step World.empty)) cfg p
            (lib.decode b) (w.view p) := by
  set ts := (lifetime lib runs).transitions World.step World.empty
  intro w hw p
  have hguard : Guarded (Discipline.naming lib (answersIn ts) (UsedIn runs)).guard ts := by
    refine fun t ht => ⟨hreads t ht, ?_, ?_⟩
    · exact fun payload keepAlive r ho hc => ⟨t, ht, keepAlive, ho, hc⟩
    · exact fun texts v ho hc => ⟨t, ht, ho, hc⟩
  have hinv : (Discipline.naming lib (answersIn ts) (UsedIn runs)).Inv w := by
    obtain rfl | hw := List.mem_cons.mp hw
    · exact Discipline.inv_empty
    · obtain ⟨t, ht, rfl⟩ := List.mem_map.mp hw
      exact (Discipline.inv_transitions (D := .naming lib (answersIn ts) (UsedIn runs)) runs
        (fun r hr => ⟨r.2, hr⟩) hguard t ht).2
  have hnames : NamesContent lib (answersIn ts) (UsedIn runs) p (w.view p) := (hinv p).kept
  refine ⟨hnames, fun b hb hinj => ?_⟩
  obtain ⟨b', hb', cfg, hcfg, hderived⟩ := hnames _ hb
  exact ⟨cfg, hcfg, hinj b' hb' ▸ hderived⟩

theorem fingerprint_names_content_sample :
    ∃ cfg, UsedIn sampleRuns cfg ∧ DerivedFrom sampleBuiltins
      (answersIn ((lifetime sampleBuiltins sampleRuns).transitions World.step World.empty))
      cfg samplePath (text "abc") (sampleWorld.view samplePath) := by
  have hreads : Guarded ReadsHashed
      ((lifetime sampleBuiltins sampleRuns).transitions World.step World.empty) := by
    unfold Guarded
    decide +kernel
  exact (fingerprint_names_content sampleBuiltins sampleRuns hreads sampleWorld
    (Lifetime.final_mem_states ..) samplePath).2 [97, 98, 99] (by decide +kernel)
    fun b' hb' => latin1_injective hb'

/-- The sample file is edited between the hash and the read, and then reverted. -/
def editedRuns : Runs := [(sampleSettings,
  [.scan [samplePath] [], .done, .bytes [97, 98, 99], .done, .bytes [66], .vectors [[1]],
    .done, .done, .ids [text "u1"], .done, .done, .done, .reply sampleReply, .done, .done,
    .done, .done, .done])]

def editedWorld : World :=
  (lifetime sampleBuiltins editedRuns).final World.step World.empty

/-- An edit between the two reads stores the data of the edited text under the
hash of the old one, whatever Ollama answers; once reverted, the file is skipped. -/
theorem edit_between_reads :
    Reachable sampleBuiltins editedWorld ∧
      (∀ ollama, ¬ NamesContent sampleBuiltins ollama (UsedIn editedRuns) samplePath
        (editedWorld.view samplePath)) ∧
      (run World.step (indexFile sampleBuiltins sampleSettings samplePath)
        [.bytes [97, 98, 99], .done] editedWorld).1 = some (.ok .skipped) := by
  refine ⟨⟨editedRuns, rfl⟩, fun ollama hnames => ?_, by decide +kernel⟩
  have hmarked : (editedWorld.view samplePath).fingerprint =
      some (sampleBuiltins.sha256 [97, 98, 99]) := by decide +kernel
  obtain ⟨b, hb, cfg, ⟨cs, hcs⟩, hderived⟩ := hnames _ hmarked
  cases latin1_injective hb
  cases (Prod.mk.inj (List.mem_singleton.mp hcs)).1
  have hpoints : (editedWorld.view samplePath).points =
      {⟨text "u1", [1], text "B", samplePath, 0, none⟩} := by decide +kernel
  have hchunks : chunkFile sampleSettings samplePath (sampleBuiltins.decode [97, 98, 99]) =
      .ok [(text "abc", none)] := by decide +kernel
  obtain ⟨hnil, -⟩ | ⟨x, points, hsub, hview⟩ := hderived
  · rw [hchunks] at hnil
    cases hnil
  · have hstored : points = {⟨text "u1", [1], text "B", samplePath, 0, none⟩} :=
      (congrArg FileView.points hview).symm.trans hpoints
    have hmem := (mem_buildPoints x.points_eq _).mp
      (List.mem_toFinset.mp (hsub (hstored ▸ Finset.mem_singleton_self _)))
    have hchunked := x.chunked_eq.symm.trans hchunks
    cases hx : x.chunked with
    | nil => exact x.chunked_ne hx
    | cons first rest =>
        rw [hx] at hmem hchunked
        cases hchunked
        exact absurd hmem.2.2.1 (by decide)

end LocalGraphRag.Ingest
