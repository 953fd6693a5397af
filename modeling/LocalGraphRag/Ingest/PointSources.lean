import LocalGraphRag.Effects.CallSupport
import LocalGraphRag.Ingest.Ownership

/-!
# Where the points come from

The texts in the collection are chunks of what the indexer read, and a run reads no file that
its scan has not found. Over a whole lifetime, with its failures and crashes, the records of
the runs name the scan and the read behind each point.
-/

namespace LocalGraphRag.Ingest

open Python Relational LocalGraphRag.Graph Effects

/-- The calls of a run of the indexer with what they returned. -/
abbrev IndexRecord := List (Executed Call.Ret Failure)

/-- The runs of the indexer, each by its settings and its record. -/
abbrev RunRecords := List (Settings × IndexRecord)

/-- The scan of the run found the file. -/
def Found (record : IndexRecord) (p : Text) : Prop :=
  ∃ files unscanned, ⟨.collectFiles, .ok (files, unscanned)⟩ ∈ record ∧ p ∈ files

/-- The run read these bytes from the file after its scan had found it. -/
def ReadFrom (record : IndexRecord) (p : Text) (b : Bytes) : Prop :=
  ∃ before, before ++ [⟨.readFile p, .ok b⟩] <+: record ∧ Found before p

/-- The point is that of a chunk of bytes that one of the runs read. -/
def Sourced (lib : Builtins) (runs : RunRecords) (q : Point) : Prop :=
  ∃ r ∈ runs, ∃ b chunked, ReadFrom r.2 q.filepath b ∧
    chunkFile r.1 q.filepath (lib.decode b) = .ok chunked ∧
    chunked[q.chunkIndex]? = some (q.text, q.defName)

/-- Every point has its source in this run or an earlier one. -/
def AllSourced (lib : Builtins) (earlier : RunRecords) (cfg : Settings)
    (w : World × IndexRecord) : Prop :=
  ∀ q ∈ w.1.points, Sourced lib (earlier ++ [(cfg, w.2)]) q

/-- This, and what was on record stays. -/
structure Extends (lib : Builtins) (earlier : RunRecords) (cfg : Settings) (base : IndexRecord)
    (w : World × IndexRecord) : Prop where
  sourced : AllSourced lib earlier cfg w
  record : base <+: w.2

/-- A call that puts no points into the collection. -/
def AddsNoPoints (o : Call) : Prop := ∀ points, o ≠ .upsertPoints points

section Steps
variable {lib : Builtins} {earlier : RunRecords} {cfg : Settings}
variable {record record' : IndexRecord} {p : Text}

theorem Found.mono (h : Found record p) (hsub : record <+: record') : Found record' p := by
  obtain ⟨files, unscanned, hscan, hp⟩ := h
  exact ⟨files, unscanned, hsub.subset hscan, hp⟩

theorem ReadFrom.mono {b : Bytes} (h : ReadFrom record p b) (hsub : record <+: record') :
    ReadFrom record' p b := by
  obtain ⟨before, hread, hfound⟩ := h
  exact ⟨before, hread.trans hsub, hfound⟩

theorem Sourced.mono {q : Point} (h : Sourced lib (earlier ++ [(cfg, record)]) q)
    (hsub : record <+: record') : Sourced lib (earlier ++ [(cfg, record')]) q := by
  obtain ⟨r, hr, b, chunked, hread, hsource⟩ := h
  obtain hr | hr := List.mem_append.mp hr
  · exact ⟨r, List.mem_append_left _ hr, b, chunked, hread, hsource⟩
  · obtain rfl := List.mem_singleton.mp hr
    exact ⟨(cfg, record'), List.mem_append_right _ (List.mem_singleton_self _), b, chunked,
      hread.mono hsub, hsource⟩

/-- Any other call leaves at most the points that were there. -/
theorem mem_points_of_step {w : World} {o : Call} (ho : AddsNoPoints o) {c : Choice} {q : Point}
    (hq : q ∈ (w.step o c).2.points) : q ∈ w.points := by
  have hdelete : ∀ ids : Finset Text, q ∈ (w.deletePoints ids).points → q ∈ w.points :=
    fun ids h => ((Table.mem_deleteWhere ..).mp h).1
  cases o with
  | upsertPoints points => exact absurd rfl (ho points)
  | write op =>
      obtain ⟨s', -, h⟩ | ⟨e, h⟩ := step_write w op c <;> rw [h] at hq <;> exact hq
  | upsertEntities entities sourceDoc =>
      obtain ⟨slugs, s', -, h⟩ | ⟨e, h⟩ := step_upsertEntities w entities sourceDoc c <;>
        rw [h] at hq <;> exact hq
  | deletePoints ids =>
      obtain h | ⟨e, reached, h⟩ | ⟨e, h⟩ := step_deletePoints w ids c
      · rw [h] at hq
        exact hdelete _ hq
      · rw [h] at hq
        exact hdelete _ hq
      · rw [h] at hq
        exact hq
  | _ =>
      rw [(step_keeps w rfl c).2] at hq
      exact hq

theorem AllSourced.step {w : World × IndexRecord} {o : Call} (c : Choice) (ho : AddsNoPoints o)
    (h : AllSourced lib earlier cfg w) :
    AllSourced lib earlier cfg (recording World.step w o c).2 :=
  fun q hq => (h q (mem_points_of_step ho hq)).mono (List.prefix_append ..)

/-- All points are put in, some of them or none. -/
theorem mem_points_of_upsert {w : World} {points : List Point} {c : Choice} {q : Point}
    (hq : q ∈ (w.step (.upsertPoints points) c).2.points) : q ∈ points ∨ q ∈ w.points := by
  obtain hstep | ⟨e, reached, hstep⟩ | ⟨e, hstep⟩ := step_upsertPoints w points c
  · rw [hstep] at hq
    exact (Table.mem_or_mem_of_mem_insertAllOrReplace hq).imp_right And.left
  · rw [hstep] at hq
    obtain hq | hq := Table.mem_or_mem_of_mem_insertAllOrReplace hq
    · exact Or.inl (List.mem_of_mem_filter hq)
    · exact Or.inr hq.1
  · rw [hstep] at hq
    exact Or.inr hq

/-- Points with a source may be put in. -/
theorem AllSourced.upsertPoints {w : World × IndexRecord} {points : List Point} (c : Choice)
    (h : AllSourced lib earlier cfg w)
    (hpoints : ∀ q ∈ points, Sourced lib (earlier ++ [(cfg, w.2)]) q) :
    AllSourced lib earlier cfg (recording World.step w (.upsertPoints points) c).2 := by
  intro q hq
  apply Sourced.mono _ (List.prefix_append ..)
  obtain hq | hq := mem_points_of_upsert hq
  · exact hpoints q hq
  · exact h q hq

end Steps

section Programs
variable {lib : Builtins} {cfg : Settings} {earlier : RunRecords} {base : IndexRecord}
variable {p : Text} {w : World × IndexRecord}

/-- The program leaves no point without a source, and this holds of what it returns. -/
abbrev Sources (lib : Builtins) (earlier : RunRecords) (cfg : Settings) (base : IndexRecord)
    {α : Type} (m : Indexer α) (R : α → World × IndexRecord → Prop) (w : World × IndexRecord) :
    Prop :=
  Establishes (recording World.step) (fun _ _ _ => True) (Extends lib earlier cfg base) m R w

theorem callsOnly_deleteVectors : CallsOnly AddsNoPoints (deleteVectors p) := by
  unfold deleteVectors
  apply (callsOnly_perform nofun).bind
  intro priorIds
  split_ifs
  · trivial
  · exact callsOnly_perform nofun

theorem callsOnly_cleanupChangedFile : CallsOnly AddsNoPoints (cleanupChangedFile p) :=
  callsOnly_deleteVectors.bind fun _ => callsOnly_perform nofun

theorem callsOnly_hashFile : CallsOnly AddsNoPoints (hashFile lib p) := by
  apply CallsOnly.orElse
  · exact (callsOnly_perform nofun).bind fun _ => callsOnly_ret _
  · exact fun _ => callsOnly_ret _

theorem callsOnly_readFile : CallsOnly AddsNoPoints (readFile lib p) := by
  apply CallsOnly.orElse
  · exact (callsOnly_perform nofun).bind fun _ => callsOnly_ret _
  · exact fun _ => callsOnly_ret _

theorem callsOnly_embedBatch (texts : List Text) :
    CallsOnly AddsNoPoints (embedBatch cfg texts) := by
  apply (callsOnly_ofExcept _).bind
  intro prepared
  apply callsOnly_foldlM
  intro vectors batch
  apply (callsOnly_perform nofun).bind
  intro embeddings
  split_ifs <;> trivial

theorem callsOnly_loadOrExtractBatch (batchText : Text) (batchIndex : ℕ) :
    CallsOnly AddsNoPoints (loadOrExtractBatch lib cfg p batchText batchIndex) := by
  apply (callsOnly_perform nofun).bind
  intro cached
  cases cached with
  | some response => trivial
  | none =>
      apply (callsOnly_perform nofun).bind
      intro response
      exact (callsOnly_perform nofun).bind fun _ => trivial

theorem callsOnly_extractUnlessHistory (chunks : List Text) :
    CallsOnly AddsNoPoints (extractUnlessHistory lib cfg chunks p) := by
  unfold extractUnlessHistory extractEntitiesForFile
  split_ifs
  · trivial
  · trivial
  · apply CallsOnly.bind
    · apply callsOnly_foldlM
      intro results batch
      apply CallsOnly.bind _ fun _ => callsOnly_ret _
      apply CallsOnly.orElse _ fun _ => callsOnly_ret _
      exact (callsOnly_loadOrExtractBatch ..).bind fun _ => callsOnly_ret _
    · exact fun _ => callsOnly_ret _

/-- The rest of `_write_index_data`, behind its points. -/
theorem callsOnly_afterPoints {chunks pointIds : List Text} {currentHash : Text} :
    CallsOnly AddsNoPoints (do
      let result ← extractUnlessHistory lib cfg chunks p
      let entityIds ← Prog.perform (Call.upsertEntities result.entities p)
      Prog.perform (Call.write (.upsertRelationships (relationshipRows p result.relationships)))
      let pairs ← Prog.ofExcept
        (matchEntityChunks lib chunks pointIds result.entities entityIds)
      Prog.perform (Call.write (.linkChunks pairs))
      if result.hadFailure then return result
      else
        Prog.perform (Call.write (.upsertHash p currentHash))
        return result : Indexer ExtractionResult) := by
  refine (callsOnly_extractUnlessHistory chunks).bind fun result => ?_
  refine (callsOnly_perform nofun).bind fun entityIds => ?_
  refine (callsOnly_perform nofun).bind fun _ => ?_
  refine (callsOnly_ofExcept _).bind fun pairs => ?_
  refine (callsOnly_perform nofun).bind fun _ => ?_
  split_ifs
  · exact callsOnly_ret _
  · exact (callsOnly_perform nofun).bind fun _ => callsOnly_ret _

theorem callsOnly_stalePhase (files unscanned : List Text) :
    CallsOnly AddsNoPoints (stalePhase files unscanned) := by
  apply (callsOnly_perform nofun).bind
  intro tracked
  apply callsOnly_foldlM
  intro _ filepath
  exact callsOnly_deleteVectors.bind fun _ => callsOnly_perform nofun

theorem Extends.step (hw : Extends lib earlier cfg base w) {o : Call} (c : Choice)
    (ho : AddsNoPoints o) : Extends lib earlier cfg base (recording World.step w o c).2 :=
  ⟨hw.sourced.step c ho, hw.record.trans (List.prefix_append ..)⟩

/-- A program that puts in no points. -/
theorem sources_of_callsOnly {α : Type} {m : Indexer α} (hm : CallsOnly AddsNoPoints m)
    (hw : Extends lib earlier cfg base w) :
    Sources lib earlier cfg base m (fun _ w' => w.2 <+: w'.2) w :=
  hm.establishes (fun _ _ c ho h => h.step c ho) hw

/-- What `_read_file` returns is on record. -/
theorem readFile_sources (hw : Extends lib earlier cfg base w) (hfound : Found base p) :
    Sources lib earlier cfg base (readFile lib p) (fun content w' =>
      ∀ t ∈ content, ∃ b, t = lib.decode b ∧ ReadFrom w'.2 p b) w := by
  refine safe_orElse (safe_perform_bind fun c _ => ⟨hw.step c nofun, ?_⟩)
  have hstep := hw.step c (o := .readFile p) nofun
  simp only [recording_fst, recording_snd] at hstep ⊢
  cases hr : (w.1.step (.readFile p) c).1 with
  | error e =>
      rw [hr] at hstep
      refine ⟨hstep, ?_⟩
      rintro _ ⟨⟩ _ ⟨⟩
  | ok b =>
      rw [hr] at hstep
      refine ⟨hstep, ?_⟩
      rintro _ ⟨⟩ _ ⟨⟩
      exact ⟨b, rfl, w.2, List.prefix_rfl, hfound.mono hw.record⟩

/-- The points are put in once their source is on record. -/
theorem writeIndexData_sources {chunks : List Text} {points : List Point} {currentHash : Text}
    (hw : Extends lib earlier cfg base w)
    (hpoints : ∀ q ∈ points, Sourced lib (earlier ++ [(cfg, w.2)]) q) :
    Sources lib earlier cfg base (writeIndexData lib cfg p chunks points currentHash)
      (fun _ _ => True) w := by
  refine (sources_of_callsOnly (callsOnly_perform (by nofun)) hw).bind fun _ w₁ hw₁ hrecord => ?_
  have hupsert : Sources lib earlier cfg base (Prog.perform (Call.upsertPoints points))
      (fun _ _ => True) w₁ := by
    apply establishes_perform
    intro c _
    refine ⟨⟨hw₁.sourced.upsertPoints c fun q hq => (hpoints q hq).mono hrecord, ?_⟩,
      fun _ _ => trivial⟩
    exact hw₁.record.trans (List.prefix_append ..)
  refine hupsert.bind fun _ w₂ hw₂ _ => ?_
  exact (sources_of_callsOnly callsOnly_afterPoints hw₂).mono fun _ _ _ _ => trivial

/-- Each point that `_build_points` makes is one of a chunk. -/
theorem sourced_of_buildPoints {record : IndexRecord} {b : Bytes}
    (hread : ReadFrom record p b) {chunked : List (Text × Option Text)}
    (hchunked : chunkFile cfg p (lib.decode b) = .ok chunked) {vectors : List Embedding}
    {ids : List Text} {points : List Point}
    (hpoints : buildPoints p chunked vectors ids = .ok points) :
    ∀ q ∈ points, Sourced lib (earlier ++ [(cfg, record)]) q := by
  intro q hq
  obtain ⟨rfl, -, hchunk, -⟩ := (mem_buildPoints hpoints q).mp hq
  exact ⟨(cfg, record), List.mem_append_right _ (List.mem_singleton_self _), b, chunked, hread,
    hchunked, hchunk⟩

theorem indexFileReport_sources (hw : Extends lib earlier cfg base w)
    (hfound : Found base p) :
    Sources lib earlier cfg base (indexFileReport lib cfg p) (fun _ _ => True) w := by
  unfold indexFileReport
  refine (sources_of_callsOnly callsOnly_hashFile hw).bind fun digest w₁ hw₁ _ => ?_
  cases digest with
  | none => exact establishes_ret hw₁ trivial
  | some digest =>
  refine (sources_of_callsOnly (callsOnly_perform (by nofun)) hw₁).bind fun stored w₂ hw₂ _ => ?_
  split_ifs
  · exact establishes_ret hw₂ trivial
  refine (readFile_sources hw₂ hfound).bind fun content w₃ hw₃ hcontent => ?_
  cases content with
  | none => exact establishes_ret hw₃ trivial
  | some content =>
  obtain ⟨b, rfl, hread⟩ := hcontent content rfl
  refine establishes_ofExcept_bind hw₃ fun chunked hchunked => ?_
  split_ifs with hnil
  · refine (sources_of_callsOnly ?_ hw₃).mono fun _ _ _ _ => trivial
    refine callsOnly_cleanupChangedFile.bind fun _ => ?_
    exact (callsOnly_perform nofun).bind fun _ => callsOnly_ret _
  · refine (sources_of_callsOnly (callsOnly_embedBatch _) hw₃).bind fun vectors w₄ hw₄ h₄ => ?_
    refine (sources_of_callsOnly callsOnly_cleanupChangedFile hw₄).bind fun _ w₅ hw₅ h₅ => ?_
    refine (sources_of_callsOnly (callsOnly_perform (by nofun)) hw₅).bind fun ids w₆ hw₆ h₆ => ?_
    refine establishes_ofExcept_bind hw₆ fun points hpoints => ?_
    have hrecord : w₃.2 <+: w₆.2 :=
      calc w₃.2
        _ <+: w₄.2 := h₄
        _ <+: w₅.2 := h₅
        _ <+: w₆.2 := h₆
    have hsources : ∀ q ∈ points, Sourced lib (earlier ++ [(cfg, w₆.2)]) q :=
      sourced_of_buildPoints (hread.mono hrecord) hchunked hpoints
    exact (writeIndexData_sources hw₆ hsources).bind fun _ _ hw₇ _ => establishes_ret hw₇ trivial

/-- Every run of `main` leaves only points with a source, wherever it crashes. -/
theorem main_sources (hw : AllSourced lib earlier cfg w) :
    Safe (recording World.step) (fun _ _ _ => True) (AllSourced lib earlier cfg) (main lib cfg)
      (fun _ w' => AllSourced lib earlier cfg w') w := by
  unfold main
  refine safe_perform_bind fun c _ => ⟨hw.step c nofun, ?_⟩
  have hstep := hw.step c (o := .collectFiles) nofun
  simp only [recording_fst, recording_snd] at hstep ⊢
  cases hr : (w.1.step .collectFiles c).1 with
  | error e =>
      rw [hr] at hstep
      exact hstep
  | ok scan =>
      rw [hr] at hstep
      obtain ⟨files, unscanned⟩ := scan
      have hfound : ∀ p ∈ files,
          Found (w.2 ++ [⟨.collectFiles, .ok (files, unscanned)⟩]) p := by
        intro p hp
        exact ⟨files, unscanned, List.mem_append_right _ (List.mem_singleton_self _), hp⟩
      rw [thenPost_ok]
      apply Safe.weaken (I := Extends lib earlier cfg
        (w.2 ++ [⟨.collectFiles, .ok (files, unscanned)⟩])) _ fun _ h => h.sourced
      have hbase : Extends lib earlier cfg (w.2 ++ [⟨.collectFiles, .ok (files, unscanned)⟩])
          ((w.1.step .collectFiles c).2, w.2 ++ [⟨.collectFiles, .ok (files, unscanned)⟩]) :=
        ⟨hstep, List.prefix_rfl⟩
      have hrest : Sources lib earlier cfg (w.2 ++ [⟨.collectFiles, .ok (files, unscanned)⟩]) (do
          stalePhase files unscanned
          files.foldlM (indexOne lib cfg) []) (fun _ _ => True)
          ((w.1.step .collectFiles c).2, w.2 ++ [⟨.collectFiles, .ok (files, unscanned)⟩]) := by
        refine (sources_of_callsOnly (callsOnly_stalePhase ..) hbase).bind fun _ w₁ hw₁ _ => ?_
        refine (establishes_foldlM (fun _ _ _ => True) hw₁ trivial ?_).mono fun _ _ _ _ => trivial
        intro done p rest hfiles outcomes w₂ hw₂ _
        have hp : p ∈ files := by simp [hfiles]
        refine Establishes.bind (R := fun _ _ => True) ?_ fun _ _ hw₃ _ =>
          establishes_ret hw₃ trivial
        apply safe_orElse
        apply safe_bind
        apply safe_mono (indexFileReport_sources hw₂ (hfound p hp))
        intro r w₃ hw₃
        cases r with
        | error e => exact ⟨hw₃.1, fun _ _ => trivial⟩
        | ok report => exact ⟨hw₃.1, fun _ _ => trivial⟩
      exact safe_mono hrest fun _ _ h => h.1.sourced

end Programs

section Scans
variable {lib : Builtins} {cfg : Settings} {p : Text} {files unscanned : List Text}

/-- A call that puts in points of one file only. -/
def PutsOnly (p : Text) (o : Call) : Prop :=
  ∀ points, o = .upsertPoints points → ∀ q ∈ points, q.filepath = p

theorem AddsNoPoints.putsOnly {o : Call} (h : AddsNoPoints o) : PutsOnly p o :=
  fun points ho => absurd ho (h points)

/-- `_index_file` puts in points of its own file. -/
theorem callsOnly_indexFileReport : CallsOnly (PutsOnly p) (indexFileReport lib cfg p) := by
  have hnone : ∀ {α : Type} {m : Indexer α}, CallsOnly AddsNoPoints m →
      CallsOnly (PutsOnly p) m := fun hm => hm.mono fun _ ho => ho.putsOnly
  unfold indexFileReport
  refine (hnone callsOnly_hashFile).bind fun digest => ?_
  cases digest with
  | none => exact callsOnly_ret _
  | some digest =>
  refine (hnone (callsOnly_perform (by nofun))).bind fun stored => ?_
  split_ifs
  · exact callsOnly_ret _
  refine (hnone callsOnly_readFile).bind fun content => ?_
  cases content with
  | none => exact callsOnly_ret _
  | some content =>
  refine callsOnly_ofExcept_bind fun chunked _ => ?_
  split_ifs
  · refine (hnone callsOnly_cleanupChangedFile).bind fun _ => ?_
    exact hnone ((callsOnly_perform (by nofun)).bind fun _ => callsOnly_ret _)
  · refine (hnone (callsOnly_embedBatch _)).bind fun vectors => ?_
    refine (hnone callsOnly_cleanupChangedFile).bind fun _ => ?_
    refine (hnone (callsOnly_perform (by nofun))).bind fun ids => ?_
    refine callsOnly_ofExcept_bind fun points hpoints => ?_
    refine CallsOnly.bind ?_ fun _ => callsOnly_ret _
    refine (hnone (callsOnly_perform (by nofun))).bind fun _ => ?_
    have hown : PutsOnly p (.upsertPoints points) := by
      rintro _ ⟨⟩ q hq
      exact ((mem_buildPoints hpoints q).mp hq).1
    exact (callsOnly_perform hown).bind fun _ => hnone callsOnly_afterPoints

/-- The points are those of files that the scan found, or could not look for. -/
def KeepsToScan (files unscanned : List Text) (w : World) : Prop :=
  ∀ q ∈ w.points, q.filepath ∈ files ∨ isUnderAnyRoot q.filepath unscanned = true

theorem KeepsToScan.step {w : World} {o : Call} (c : Choice) (hp : p ∈ files) (ho : PutsOnly p o)
    (h : KeepsToScan files unscanned w) : KeepsToScan files unscanned (w.step o c).2 := by
  intro q hq
  by_cases hputs : AddsNoPoints o
  · exact h q (mem_points_of_step hputs hq)
  · rw [AddsNoPoints] at hputs
    push Not at hputs
    obtain ⟨points, rfl⟩ := hputs
    obtain hq | hq := mem_points_of_upsert hq
    · rw [ho points rfl q hq]
      exact Or.inl hp
    · exact h q hq

/-- A run that has finished leaves no point of a file that its scan shows to be gone. -/
theorem main_keepsToScan {w w' : World} (h : Reachable lib w) {cs : List Choice}
    {outcomes : List Outcome}
    (hrun : run World.step (main lib cfg) (.scan files unscanned :: cs) w =
      (some (.ok outcomes), w')) : KeepsToScan files unscanned w' := by
  have hw := h.inv
  have hsafe : Safe World.step (fun _ _ _ => True) (fun _ => True) (do
      stalePhase files unscanned
      files.foldlM (indexOne lib cfg) [])
      (fun r w' => ∀ outcomes, r = .ok outcomes → KeepsToScan files unscanned w') w := by
    apply safe_bind
    have hstale := (stalePhase_keeps hw files unscanned).weaken (J := fun _ => True)
      fun _ _ => trivial
    apply safe_mono hstale
    intro r w₁ hw₁
    obtain ⟨hinv₁, hother, -, hempty⟩ := hw₁
    cases r with
    | error e =>
        rintro _ ⟨⟩
    | ok _ =>
        have hkeeps : KeepsToScan files unscanned w₁ := by
          intro q hq
          by_contra hnot
          rw [not_or] at hnot
          have howns : Owns w₁ q.filepath :=
            Or.inr (Or.inr (Or.inr (Or.inr (Or.inr (Or.inr ⟨q, hq, rfl⟩)))))
          by_cases hgone : q.filepath ∈ stalePaths w.store.listAllPaths files unscanned
          · exact not_owns_of_view (hempty rfl _ hgone) howns
          · rw [owns_iff_view, hother _ hgone, ← owns_iff_view] at howns
            apply hgone
            refine Finset.mem_filter.mpr ⟨?_, by simpa using hnot.2⟩
            exact Finset.mem_sdiff.mpr ⟨owns_listed hw howns, by simpa using hnot.1⟩
        rw [thenPost_ok]
        have hloop : Safe World.step (fun _ _ _ => True) (KeepsToScan files unscanned)
            (files.foldlM (indexOne lib cfg) [])
            (fun _ w' => KeepsToScan files unscanned w') w₁ := by
          refine safe_foldlM (fun _ _ w => KeepsToScan files unscanned w)
            (fun _ w => KeepsToScan files unscanned w) hkeeps ?_ ?_
          · intro r w₂ hw₂
            cases r <;> exact hw₂
          · intro done p rest hfiles outcomes w₂ hw₂
            have hp : p ∈ files := by simp [hfiles]
            have hone : CallsOnly (PutsOnly p) (indexOne lib cfg outcomes p) := by
              refine CallsOnly.bind ?_ fun _ => callsOnly_ret _
              refine CallsOnly.orElse ?_ fun _ => callsOnly_ret _
              exact callsOnly_indexFileReport.bind fun _ => callsOnly_ret _
            apply safe_mono (hone.safe (fun _ _ c ho h => h.step c hp ho) hw₂)
            intro r w₃ hw₃
            cases r <;> exact hw₃
        exact safe_mono (hloop.weaken fun _ _ => trivial) fun _ _ hw₂ _ _ => hw₂
  have hmain : run World.step (do
      stalePhase files unscanned
      files.foldlM (indexOne lib cfg) []) cs w = (some (.ok outcomes), w') := hrun
  have hpost := (hsafe.run trivial cs (guarded_true _)).2
  rw [hmain] at hpost
  exact hpost _ rfl outcomes rfl

end Scans

section Lifetimes
variable {lib : Builtins}

/-- One more run, from an empty record. -/
def recordRun (lib : Builtins) (w : World × RunRecords) (r : Settings × List Choice) :
    World × RunRecords :=
  let ended := (run (recording World.step) (main lib r.1) r.2 (w.1, [])).2
  (ended.1, w.2 ++ [(r.1, ended.2)])

/-- The stores and the records after some runs. -/
def recorded (lib : Builtins) (runs : Runs) : World × RunRecords :=
  runs.foldl (recordRun lib) (World.empty, [])

/-- The record changes nothing. -/
theorem foldl_recordRun_fst (runs : Runs) (w : World × RunRecords) :
    (runs.foldl (recordRun lib) w).1 = (lifetime lib runs).final World.step w.1 := by
  induction runs generalizing w with
  | nil => rfl
  | cons r runs ih =>
      rw [List.foldl_cons, ih, recordRun, (run_recording ..).2]
      rfl

theorem recorded_fst (runs : Runs) :
    (recorded lib runs).1 = (lifetime lib runs).final World.step World.empty :=
  foldl_recordRun_fst _ _

/-- A run keeps a source for every point. -/
theorem sourced_recordRun {w : World × RunRecords} (h : ∀ q ∈ w.1.points, Sourced lib w.2 q)
    (r : Settings × List Choice) :
    ∀ q ∈ (recordRun lib w r).1.points, Sourced lib (recordRun lib w r).2 q := by
  have hstart : AllSourced lib w.2 r.1 (w.1, []) := by
    intro q hq
    obtain ⟨source, hsource, hread⟩ := h q hq
    exact ⟨source, List.mem_append_left _ hsource, hread⟩
  exact ((main_sources hstart).run hstart r.2 (guarded_true _)).1

/-- After any runs, with failures and crashes, every point is that of a chunk of bytes which one
of them has read from a file that its own scan had found. -/
theorem sourced_recorded (runs : Runs) :
    ∀ q ∈ (recorded lib runs).1.points, Sourced lib (recorded lib runs).2 q := by
  suffices h : ∀ w : World × RunRecords, (∀ q ∈ w.1.points, Sourced lib w.2 q) →
      ∀ q ∈ (runs.foldl (recordRun lib) w).1.points,
        Sourced lib (runs.foldl (recordRun lib) w).2 q from
    h (World.empty, []) fun q hq => absurd hq (Table.notMem_empty q)
  induction runs with
  | nil => exact fun _ hw => hw
  | cons r runs ih => exact fun w hw => ih _ (sourced_recordRun hw r)

end Lifetimes

end LocalGraphRag.Ingest
