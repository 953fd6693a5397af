import LocalGraphRag.Graph.PromptLines
import LocalGraphRag.Python.Numerals
import LocalGraphRag.Rag.GlobalRetrieval
import LocalGraphRag.Rag.LocalRetrieval
import LocalGraphRag.Rag.ProjectPaths
import LocalGraphRag.Rag.QueryRouter

/-!
# The prompt of an answer

A question becomes a prompt: it is routed, its context is retrieved, and both are put into a
template. A question that names a project is answered from the files of that project.

## Implementation notes

The store and the collection are those of one moment. Every call, a read of the store among
them, raises or does not as the world says, with whatever exception; a question makes each
read of the store at most once.
-/

namespace LocalGraphRag.Rag

open LocalGraphRag.Python LocalGraphRag.Sequences LocalGraphRag.Effects
open LocalGraphRag.Graph (EntityRow CommunityEdge CommunityRow GraphStore FingerprintRow orElseText
  lineOfEntity lineOfEdge)
open LocalGraphRag.Ingest (FlaggedIndexPath)

inductive GraphMode where
  | auto
  | local
  | global
  deriving DecidableEq

section Prompt
variable (contextBlock question : Text)

/-- `_PROMPT`. -/
def promptTemplate : Text :=
  text "Use the context below to answer the question. If the context is missing, incomplete, " ++
    text "or not relevant, answer using your own knowledge instead.\n\n" ++
    text "\x7bcontext_block\x7d\n\nQuestion: \x7bquestion\x7d\nAnswer:"

def promptFields : List (Text × Text) :=
  [(text "context_block", contextBlock), (text "question", question)]

def renderPrompt : Text := (format (promptFields contextBlock question) promptTemplate).getD []

def promptStart : Text :=
  text "Use the context below to answer the question. If the context is missing, incomplete, " ++
    text "or not relevant, answer using your own knowledge instead.\n\n"

/-- The template never raises, and neither argument is read as a part of it. -/
theorem format_promptTemplate : format (promptFields contextBlock question) promptTemplate =
    some (renderPrompt contextBlock question) ∧
      renderPrompt contextBlock question =
        promptStart ++ contextBlock ++ text "\n\nQuestion: " ++ question ++ text "\nAnswer:" := by
  have hquestion : format (promptFields contextBlock question)
      (text "\n\nQuestion: " ++ fieldOf (text "question") ++ text "\nAnswer:") =
        some (text "\n\nQuestion: " ++ question ++ text "\nAnswer:") := by
    apply format_append_fieldOf (includes_append [] _)
    · decide +kernel
    · exact ⟨by decide, by decide, by decide⟩
    · rfl
    · decide +kernel
  have hcontext : format (promptFields contextBlock question)
      (promptStart ++ fieldOf (text "context_block") ++
        (text "\n\nQuestion: " ++ fieldOf (text "question") ++ text "\nAnswer:")) =
        some (promptStart ++ contextBlock ++
          (text "\n\nQuestion: " ++ question ++ text "\nAnswer:")) := by
    apply format_append_fieldOf (includes_refl _) _ _ _ hquestion
    · have hstart : format [] promptStart = some promptStart := by
        simp only [promptStart, text_ofList]
        decide +kernel
      exact format_mono (includes_append [] _) hstart
    · exact ⟨by decide, by decide, by decide⟩
    · rfl
  have htemplate : promptTemplate = promptStart ++ fieldOf (text "context_block") ++
      (text "\n\nQuestion: " ++ fieldOf (text "question") ++ text "\nAnswer:") := by
    have hfields : text "\x7bcontext_block\x7d\n\nQuestion: \x7bquestion\x7d\nAnswer:" =
        fieldOf (text "context_block") ++
          (text "\n\nQuestion: " ++ fieldOf (text "question") ++ text "\nAnswer:") := by
      decide +kernel
    rw [promptTemplate, hfields, promptStart]
    simp only [List.append_assoc]
  rw [← htemplate] at hcontext
  rw [renderPrompt, hcontext]
  simp

end Prompt

section Format

def entityLine (e : EntityRow) : Text := lineOfEntity e (e.description.getD [])

def relationshipLine (entities : List EntityRow) (r : CommunityEdge) : Text :=
  lineOfEdge entities r

/-- `_MAX_CHUNK_BLOCK_CHARS`. -/
def maxChunkBlockChars : ℕ := 10000

/-- The loop over the chunk texts, with what has been taken and its length. -/
def takeTexts (parts : List Text) (total : ℕ) : List Text → List Text
  | [] => parts
  | content :: contents =>
      if parts ≠ [] ∧ maxChunkBlockChars < total + content.length then parts
      else takeTexts (parts ++ [content]) (total + content.length) contents

/-- `block or "(none)"`. -/
def blockOf (block : Text) : Text := orElseText (some block) (text "(none)")

def localBlock (ctx : LocalContext) : Text :=
  text "Entities:\n" ++ blockOf (join (text "\n") (ctx.entities.map entityLine)) ++
    text "\n\nRelationships:\n" ++
    blockOf (join (text "\n") (ctx.relationships.map (relationshipLine ctx.entities))) ++
    text "\n\nSupporting text:\n" ++
    blockOf (join (text "\n\n") (takeTexts [] 0 ctx.chunkTexts))

def formatLocal (ctx : LocalContext) (question : Text) : Text :=
  renderPrompt (localBlock ctx) question

def communityBlock (id : ℕ) (summary : Text) : Text :=
  text "Community " ++ natText id ++ text ":\n" ++ summary

def formatGlobal (ctx : GlobalContext) (question : Text) : Text :=
  renderPrompt (join (text "\n\n")
    (List.zipWith communityBlock ctx.communityIds ctx.communitySummaries)) question

end Format

/-- The reads of the store that a question makes. -/
inductive StoreRead where
  | listAllPaths
  | hasCommunitySummaries
  | getCommunities
  | getEntitiesByChunkIds
  | expandNeighborhood
  deriving DecidableEq

/-- What answers the calls of a question. A read of the store raises or returns what is there. -/
structure QueryWorld (ε α σ : Type) where
  lowering : Lowering
  isWord : CodePoint → Bool
  historyDir : Path
  config : Except ε (Option (List FlaggedIndexPath))
  store : GraphStore
  reads : StoreRead → Except ε Unit
  collection : Collection
  listAllPaths : List Text
  mem_listAllPaths : ∀ p, p ∈ listAllPaths ↔ p ∈ store.listAllPaths
  generate : Text → Except ε Text
  embed : Text → Except ε (List α)
  queryPoints : List α → ℕ → Option (List Text) → Except ε (List StoredPoint)
  scroll : Except ε Unit
  scoring : Scoring α σ
  entityRetrievalK : ℕ
  entityNeighborhoodHops : ℕ
  communityRetrievalN : ℕ

inductive Context where
  | local (ctx : LocalContext)
  | global (ctx : GlobalContext)

def Context.prompt (question : Text) : Context → Text
  | .local ctx => formatLocal ctx question
  | .global ctx => formatGlobal ctx question

namespace QueryWorld
variable {ε α σ : Type} (w : QueryWorld ε α σ) (question : Text) (mode : GraphMode)

def communities : List CommunityRow := w.store.communities.scan

/-- The vector search keeps to its filter. -/
def Filters : Prop :=
  ∀ vector k paths hits, w.queryPoints vector k paths = .ok hits →
    ∀ p ∈ hits, p ∈ w.collection.points ∧ inScope paths p = true

/-- The files of the projects that the question names. The store is read if there are any
projects. -/
def projectPaths : Except ε (Option (List Text)) :=
  if projectRoots w.config = [] then .ok none
  else (w.reads .listAllPaths).map fun _ =>
    Rag.projectPaths w.lowering question w.historyDir w.config w.listAllPaths

/-- `local_retrieve`: no scroll is made for a question without identifiers. -/
def localRetrieve (paths : Option (List Text)) : Except ε Context :=
  (w.embed question).bind fun vector =>
    (w.queryPoints vector w.entityRetrievalK paths).bind fun hits =>
      (if dedupedIdentifiers w.isWord question = [] then .ok () else w.scroll).bind fun _ =>
        (w.reads .getEntitiesByChunkIds).bind fun _ =>
          (w.reads .expandNeighborhood).map fun _ =>
            .local (Rag.localRetrieve w.isWord question w.store.toTables w.collection hits
              w.entityNeighborhoodHops paths)

/-- Whether the retrieval is a global one. -/
def useGlobal (paths : Option (List Text)) : Except ε Bool :=
  if mode = .global then .ok true
  else if mode = .auto ∧ paths = none then
    (w.reads .hasCommunitySummaries).map fun _ => decide
      (routeQuery w.lowering w.isWord question (hasCommunitySummaries w.communities) w.generate =
        .global)
  else .ok false

/-- Global retrieval, which falls back to local retrieval where it finds nothing, or local
retrieval at once. -/
def retrieve (global : Bool) (paths : Option (List Text)) : Except ε Context :=
  if global then
    (w.reads .getCommunities).bind fun _ =>
      (globalRetrieve w.scoring w.communityRetrievalN w.communities (w.embed question)).bind
        fun ctx => if ctx.communitySummaries = [] then w.localRetrieve question paths
          else .ok (.global ctx)
  else w.localRetrieve question paths

/-- The paths that the retrieval is limited to. -/
def scope : Except ε (Option (List Text)) :=
  if mode = .global then .ok none else w.projectPaths question

/-- The context that `_build_prompt` retrieves. -/
def buildContext : Except ε Context :=
  (w.scope question mode).bind fun paths =>
    (w.useGlobal question mode paths).bind fun global => w.retrieve question global paths

def buildPrompt : Except ε Text := (w.buildContext question mode).map (Context.prompt question)

end QueryWorld

section Samples

/-- `argsort` by a merge sort. -/
def mergeArgsort (scores : List ℕ) : List ℕ :=
  (List.range scores.length).mergeSort fun i j => decide (scores.getD i 0 ≤ scores.getD j 0)

theorem isArgsort_mergeArgsort (scores : List ℕ) : IsArgsort scores (mergeArgsort scores) := by
  refine ⟨List.mergeSort_perm .., ?_⟩
  have hsorted : (mergeArgsort scores).Pairwise fun i j =>
      decide (scores.getD i 0 ≤ scores.getD j 0) = true := by
    apply List.pairwise_mergeSort
    · intro i j k hij hjk
      exact decide_eq_true ((of_decide_eq_true hij).trans (of_decide_eq_true hjk))
    · intro i j
      simpa using le_total (scores.getD i 0) (scores.getD j 0)
  refine hsorted.imp fun hij a ha b hb => ?_
  have hle := of_decide_eq_true hij
  rwa [List.getD_eq_getElem?_getD, List.getD_eq_getElem?_getD, ha, hb] at hle

/-- A chunk of each of two projects. -/
def twoChunks : List StoredPoint :=
  [⟨text "0", some (text "def a"), some (text "/code/graph-rag/a.py"), some 0, none⟩,
    ⟨text "1", some (text "def b"), some (text "/code/web-app/b.py"), some 0, none⟩]

/-- The files of both, and two summaries. -/
def twoFiles : GraphStore :=
  { GraphStore.empty with
    fingerprints := (∅ : Relational.Table FingerprintRow FingerprintRow.filepath).insertAllOrReplace
      [⟨text "/code/graph-rag/a.py", text "0"⟩, ⟨text "/code/web-app/b.py", text "1"⟩]
    communities := (∅ : Relational.Table CommunityRow CommunityRow.id).insertAllOrReplace
      [⟨0, text "Graphs.", [], none, some [1, 0, 0, 0]⟩,
        ⟨1, text "Pages.", [], none, some [2, 0, 0, 0]⟩]
    foreignKeys := by decide +kernel }

def twoProjects : QueryWorld Unit Unit ℕ where
  lowering := asciiLowering
  isWord := isIdentifierChar
  historyDir := [⟨text "history", by decide⟩]
  config := .ok (some [⟨⟨[⟨text "code", by decide⟩], true, []⟩, true⟩])
  store := twoFiles
  reads _ := .ok ()
  collection := ⟨twoChunks, by decide +kernel⟩
  listAllPaths := [text "/code/graph-rag/a.py", text "/code/web-app/b.py"]
  mem_listAllPaths := by
    have hpaths : twoFiles.listAllPaths =
        {text "/code/graph-rag/a.py", text "/code/web-app/b.py"} := by decide +kernel
    simp [hpaths]
  generate _ := .ok (text "global")
  embed _ := .ok [()]
  queryPoints _ k paths := .ok ((twoChunks.filter (inScope paths)).take k)
  scroll := .ok ()
  scoring := ⟨fun _ blob => (blob.headD 0).val, mergeArgsort⟩
  entityRetrievalK := 5
  entityNeighborhoodHops := 2
  communityRetrievalN := 5

theorem filters_twoProjects : twoProjects.Filters := by
  intro vector k paths hits h p hp
  obtain rfl := Except.ok.inj h
  exact List.mem_filter.mp (List.mem_of_mem_take hp)

/-- A question with one of the two names. -/
def aboutGraphRag : Text := text "what is in graph_rag?"

theorem projectPaths_twoProjects :
    ∃ paths, twoProjects.projectPaths aboutGraphRag = .ok (some paths) := by
  have hroots : projectRoots twoProjects.config ≠ [] := by decide +kernel
  rw [QueryWorld.projectPaths, if_neg hroots]
  have hnamed : Rag.projectPaths twoProjects.lowering aboutGraphRag twoProjects.historyDir
      twoProjects.config twoProjects.listAllPaths ≠ none := by
    rw [Ne, projectPaths_eq_none_iff, not_or]
    refine ⟨hroots, List.ne_nil_of_mem (a := text "graph-rag") ?_⟩
    rw [namedProjects, mem_matchProjects]
    exact ⟨by decide +kernel, by decide +kernel⟩
  obtain ⟨paths, hpaths⟩ := Option.ne_none_iff_exists'.mp hnamed
  exact ⟨paths, congrArg Except.ok hpaths⟩

end Samples

section Shown
variable {contents parts : List Text}

def totalLength (parts : List Text) : ℕ := (parts.map List.length).sum

/-- The texts that a prompt shows of those retrieved: the longest beginning of them that keeps
to the limit, and at least the first of them. -/
structure Shown (contents shown : List Text) : Prop where
  starts : shown <+: contents
  ne_nil : contents ≠ [] → shown ≠ []
  fits : shown.length ≤ 1 ∨ totalLength shown ≤ maxChunkBlockChars
  full : ∀ content, shown ++ [content] <+: contents →
    maxChunkBlockChars < totalLength shown + content.length

theorem totalLength_concat (parts : List Text) (content : Text) :
    totalLength (parts ++ [content]) = totalLength parts + content.length := by
  simp [totalLength]

theorem shown_takeTexts (hfits : parts.length ≤ 1 ∨ totalLength parts ≤ maxChunkBlockChars) :
    Shown (parts ++ contents) (takeTexts parts (totalLength parts) contents) := by
  induction contents generalizing parts with
  | nil =>
      rw [takeTexts, List.append_nil]
      refine ⟨List.prefix_rfl, id, hfits, fun content hmore => ?_⟩
      have hlength := hmore.length_le
      rw [List.length_append, List.length_singleton] at hlength
      omega
  | cons content contents ih =>
      rw [takeTexts]
      split_ifs with hfull
      · refine ⟨List.prefix_append .., fun _ => hfull.1, hfits, fun next hmore => ?_⟩
        obtain ⟨rest, hrest⟩ := hmore
        rw [List.append_assoc, List.append_cancel_left_eq, List.singleton_append] at hrest
        cases hrest
        exact hfull.2
      · have hnext : (parts ++ [content]).length ≤ 1 ∨
            totalLength (parts ++ [content]) ≤ maxChunkBlockChars := by
          rw [totalLength_concat]
          by_cases hnil : parts = []
          · left
            rw [hnil, List.nil_append, List.length_singleton]
          · right
            exact not_lt.mp fun hlt => hfull ⟨hnil, hlt⟩
        have hshown := ih hnext
        rwa [totalLength_concat, List.append_assoc, List.singleton_append] at hshown

end Shown

namespace QueryWorld
variable {ε α σ : Type} {w : QueryWorld ε α σ} {question : Text} {mode : GraphMode}

section Scoped
variable {paths : List Text}

/-- What a local retrieval shows are texts of points in its scope. -/
theorem mem_chunkTexts_inScope {hits : List StoredPoint} {c : Collection}
    {paths : Option (List Text)} (hhits : ∀ p ∈ hits, p ∈ c.points ∧ inScope paths p = true)
    {isWord : CodePoint → Bool} {store : Graph.Tables} {hops : ℕ} {content : Text}
    (h : content ∈ (Rag.localRetrieve isWord question store c hits hops paths).chunkTexts) :
    ∃ p ∈ c.points, p.text = some content ∧ inScope paths p = true := by
  obtain hhit | hdef := mem_foldl_addText.mp h
  · obtain ⟨p, hp, htext⟩ := List.mem_filterMap.mp hhit
    exact ⟨p, (hhits p hp).1, htext, (hhits p hp).2⟩
  · obtain ⟨piece, hpiece, rfl⟩ := List.mem_map.mp hdef
    obtain ⟨ident, -, hpiece⟩ := List.mem_flatMap.mp hpiece
    cases hfound : lookupByDefNames c (dedupedIdentifiers isWord question) paths ident with
    | none =>
        rw [hfound] at hpiece
        exact absurd hpiece List.not_mem_nil
    | some pieces =>
        rw [hfound] at hpiece
        obtain ⟨sorted, -, rfl, hsorted⟩ := lookup_ordered hfound
        obtain ⟨found, hmem, rfl⟩ := List.mem_map.mp hpiece
        obtain ⟨p, hdefines, hpieceOf⟩ := hsorted found hmem
        obtain ⟨-, content, htext, rfl⟩ := pieceOf_eq_some_iff.mp hpieceOf
        exact ⟨p, hdefines.mem, htext, hdefines.scope⟩

theorem localRetrieve_eq_ok {paths : Option (List Text)} {ctx : Context}
    (h : w.localRetrieve question paths = .ok ctx) : ∃ vector hits,
      w.queryPoints vector w.entityRetrievalK paths = .ok hits ∧
      ctx = .local (Rag.localRetrieve w.isWord question w.store.toTables w.collection hits
        w.entityNeighborhoodHops paths) := by
  obtain ⟨vector, -, h⟩ := except_bind_eq_ok_iff.mp h
  obtain ⟨hits, hhits, h⟩ := except_bind_eq_ok_iff.mp h
  obtain ⟨-, -, h⟩ := except_bind_eq_ok_iff.mp h
  obtain ⟨-, -, h⟩ := except_bind_eq_ok_iff.mp h
  obtain ⟨-, -, rfl⟩ := except_map_eq_ok_iff.mp h
  exact ⟨vector, hits, hhits, rfl⟩

theorem exists_filepath_of_inScope (hne : paths ≠ []) {p : StoredPoint}
    (h : inScope (some paths) p = true) : ∃ file, p.filepath = some file ∧ file ∈ paths := by
  rw [inScope, Option.getD_some, Bool.or_eq_true, List.isEmpty_iff] at h
  obtain hnil | hfile := h
  · exact absurd hnil hne
  · obtain ⟨file, hfile, hmem⟩ := (Option.any_eq_true ..).mp hfile
    exact ⟨file, hfile, of_decide_eq_true hmem⟩

/-- A question with a scope goes local, whoever is asked and whatever the summaries are. -/
theorem buildContext_of_scope (hmode : mode ≠ .global)
    (hpaths : w.projectPaths question = .ok (some paths)) :
    w.buildContext question mode = w.localRetrieve question (some paths) := by
  have huse : w.useGlobal question mode (some paths) = .ok false := by
    rw [useGlobal, if_neg hmode, if_neg (by simp)]
  rw [buildContext, scope, if_neg hmode, hpaths]
  change (w.useGlobal question mode (some paths)).bind _ = _
  rw [huse]
  rfl

/-- The scope of a question, where it has one. -/
theorem projectPaths_eq_some (h : w.projectPaths question = .ok (some paths)) :
    Rag.projectPaths w.lowering question w.historyDir w.config w.listAllPaths = some paths := by
  rw [projectPaths] at h
  split_ifs at h
  · cases Except.ok.inj h
  · obtain ⟨-, -, h⟩ := except_map_eq_ok_iff.mp h
    exact h

/-- Points that are not in the scope make no difference to what is found for a name. -/
theorem lookupByDefNames_congr {c c' : Collection} {defNames : List Text}
    {paths : Option (List Text)}
    (h : c.points.filter (inScope paths) = c'.points.filter (inScope paths)) :
    lookupByDefNames c defNames paths = lookupByDefNames c' defNames paths := by
  have hscroll : ∀ c : Collection, c.points.filter (lookupFilter defNames paths) =
      (c.points.filter (inScope paths)).filter fun p =>
        p.defName.any fun name => decide (name ∈ defNames) := by
    intro c
    rw [List.filter_filter]
    rfl
  simp only [lookupByDefNames, Collection.scroll, hscroll, h]

/-- A question that names a project is answered from the files of the projects that it names:
every text that its prompt shows is that of a chunk of one of their files, which is indexed,
and neither the router's model nor the chunks of other files have a part in the prompt. -/
theorem scoped_prompt (hfilters : w.Filters) (hmode : mode ≠ .global)
    (hpaths : w.projectPaths question = .ok (some paths)) {prompt : Text}
    (h : w.buildPrompt question mode = .ok prompt) :
    (∃ ctx, prompt = formatLocal ctx question ∧ ∀ content ∈ ctx.chunkTexts,
      ∃ p ∈ w.collection.points, p.text = some content ∧ ∃ file, p.filepath = some file ∧
        file ∈ w.store.listAllPaths ∧
        ∃ name ∈ namedProjects w.lowering question w.historyDir w.config w.listAllPaths,
          InProject w.historyDir (projectRoots w.config) w.listAllPaths name file) ∧
    ∀ (generate : Text → Except ε Text) (c : Collection),
      c.points.filter (inScope (some paths)) = w.collection.points.filter (inScope (some paths)) →
        QueryWorld.buildPrompt { w with generate := generate, collection := c } question mode =
          .ok prompt := by
  constructor
  · rw [buildPrompt, buildContext_of_scope hmode hpaths] at h
    obtain ⟨ctx, hctx, rfl⟩ := except_map_eq_ok_iff.mp h
    obtain ⟨vector, hits, hhits, rfl⟩ := localRetrieve_eq_ok hctx
    refine ⟨_, rfl, fun content hcontent => ?_⟩
    obtain ⟨p, hp, htext, hscope⟩ := mem_chunkTexts_inScope (hfilters _ _ _ _ hhits) hcontent
    have hnamed := projectPaths_eq_some hpaths
    obtain ⟨file, hfile, hmem⟩ := exists_filepath_of_inScope (projectPaths_ne_nil hnamed) hscope
    obtain ⟨name, hname, hproject⟩ := (mem_projectPaths hnamed).mp hmem
    exact ⟨p, hp, htext, file, hfile, (w.mem_listAllPaths file).mp hproject.mem, name, hname,
      hproject⟩
  · intro generate c hc
    have hother := buildContext_of_scope (w := { w with generate := generate, collection := c })
      hmode hpaths
    rw [← h, buildPrompt, buildPrompt, buildContext_of_scope hmode hpaths, hother, localRetrieve,
      localRetrieve]
    simp only [Rag.localRetrieve, lookupByDefNames_congr hc]

theorem scoped_prompt_twoProjects : ∃ paths prompt,
    twoProjects.projectPaths aboutGraphRag = .ok (some paths) ∧
    twoProjects.buildPrompt aboutGraphRag .auto = .ok prompt ∧
    ∃ ctx, prompt = formatLocal ctx aboutGraphRag ∧ ∀ content ∈ ctx.chunkTexts,
      ∃ p ∈ twoProjects.collection.points, p.text = some content ∧ ∃ file, p.filepath = some file ∧
        file ∈ twoProjects.store.listAllPaths := by
  obtain ⟨paths, hpaths⟩ := projectPaths_twoProjects
  have hlocal : twoProjects.buildContext aboutGraphRag .auto =
      twoProjects.localRetrieve aboutGraphRag (some paths) :=
    buildContext_of_scope (by decide) hpaths
  obtain ⟨prompt, hprompt⟩ : ∃ prompt,
      twoProjects.buildPrompt aboutGraphRag .auto = .ok prompt := by
    rw [buildPrompt, hlocal]
    exact ⟨_, rfl⟩
  obtain ⟨ctx, hctx, htexts⟩ :=
    (scoped_prompt filters_twoProjects (by decide) hpaths hprompt).1
  refine ⟨paths, prompt, hpaths, hprompt, ctx, hctx, fun content hcontent => ?_⟩
  obtain ⟨p, hp, htext, file, hfile, hindexed, -⟩ := htexts content hcontent
  exact ⟨p, hp, htext, file, hfile, hindexed⟩

end Scoped

section Modes

theorem buildContext_global : w.buildContext question .global = w.retrieve question true none := rfl

theorem buildContext_local : w.buildContext question .local =
    (w.projectPaths question).bind fun paths => w.retrieve question false paths := rfl

theorem useGlobal_auto : w.useGlobal question .auto none =
    (w.reads .hasCommunitySummaries).map fun _ => decide (routeQuery w.lowering w.isWord question
      (hasCommunitySummaries w.communities) w.generate = .global) := rfl

/-- Without summaries nothing is routed to global retrieval. -/
theorem routeQuery_ne_global (h : relevant w.communities = []) :
    routeQuery w.lowering w.isWord question (hasCommunitySummaries w.communities) w.generate ≠
      .global := by
  rw [routeQuery, if_neg fun hsummaries => hasCommunitySummaries_iff.mp hsummaries h]
  decide

/-- In mode `auto` a question is routed to one of the other two modes, unless the read of the
store that the router waits for raises. -/
theorem buildContext_auto (w : QueryWorld ε α σ) (question : Text) :
    w.buildContext question .auto = w.buildContext question .local ∨
      w.projectPaths question = .ok none ∧
        (w.buildContext question .auto = w.buildContext question .global ∧
            relevant w.communities ≠ [] ∨
          ∃ e, w.reads .hasCommunitySummaries = .error e ∧
            w.buildContext question .auto = .error e) := by
  have hauto : w.buildContext question .auto = (w.projectPaths question).bind fun paths =>
      (w.useGlobal question .auto paths).bind fun global => w.retrieve question global paths := rfl
  rw [hauto, buildContext_local]
  cases hpaths : w.projectPaths question with
  | error e => exact Or.inl rfl
  | ok paths =>
  cases paths with
  | some paths => exact Or.inl rfl
  | none =>
  change (w.useGlobal question .auto none).bind _ = w.retrieve question false none ∨ _
  cases hread : w.reads .hasCommunitySummaries with
  | error e =>
      right
      refine ⟨rfl, Or.inr ⟨e, rfl, ?_⟩⟩
      change (w.useGlobal question .auto none).bind _ = _
      rw [useGlobal_auto, hread]
      rfl
  | ok u =>
      rw [useGlobal_auto, hread]
      by_cases hroute : routeQuery w.lowering w.isWord question
          (hasCommunitySummaries w.communities) w.generate = .global
      · right
        refine ⟨rfl, Or.inl ⟨?_, fun hnil => routeQuery_ne_global hnil hroute⟩⟩
        change (w.useGlobal question .auto none).bind _ = _
        rw [useGlobal_auto, hread, buildContext_global]
        simp only [hroute, decide_true]
        rfl
      · left
        simp only [hroute, decide_false]
        rfl

/-- The exceptions of the calls that a question makes. -/
inductive Raises (w : QueryWorld ε α σ) (question : Text) (e : ε) : Prop where
  | embed (h : w.embed question = .error e)
  | queryPoints (vector : List α) (paths : Option (List Text))
      (h : w.queryPoints vector w.entityRetrievalK paths = .error e)
  | scroll (h : w.scroll = .error e)
  | read (read : StoreRead) (h : w.reads read = .error e)

theorem localRetrieve_eq_error {paths : Option (List Text)} {e : ε}
    (h : w.localRetrieve question paths = .error e) : w.Raises question e := by
  obtain h | ⟨vector, -, h⟩ := except_bind_eq_error_iff.mp h
  · exact .embed h
  obtain h | ⟨hits, -, h⟩ := except_bind_eq_error_iff.mp h
  · exact .queryPoints vector paths h
  obtain h | ⟨u, -, h⟩ := except_bind_eq_error_iff.mp h
  · split_ifs at h
    exact .scroll h
  obtain h | ⟨u, -, h⟩ := except_bind_eq_error_iff.mp h
  · exact .read _ h
  · exact .read _ (except_map_eq_error_iff.mp h)

theorem globalRetrieve_eq_error {scoring : Scoring α σ} {n : ℕ} {communities : List CommunityRow}
    {embed : Except ε (List α)} {e : ε}
    (h : globalRetrieve scoring n communities embed = .error e) : embed = .error e := by
  rw [globalRetrieve] at h
  split_ifs at h
  obtain h | ⟨qVec, -, h⟩ := except_bind_eq_error_iff.mp h
  · exact h
  · split_ifs at h

/-- A retrieval fails only where a call does. -/
theorem retrieve_eq_error {global : Bool} {paths : Option (List Text)} {e : ε}
    (h : w.retrieve question global paths = .error e) : w.Raises question e := by
  rw [retrieve] at h
  split_ifs at h
  · obtain h | ⟨u, -, h⟩ := except_bind_eq_error_iff.mp h
    · exact .read _ h
    obtain h | ⟨ctx, -, h⟩ := except_bind_eq_error_iff.mp h
    · exact .embed (globalRetrieve_eq_error h)
    · split_ifs at h
      exact localRetrieve_eq_error h
  · exact localRetrieve_eq_error h

theorem buildContext_eq_error {e : ε} (h : w.buildContext question mode = .error e) :
    w.Raises question e := by
  obtain h | ⟨paths, -, h⟩ := except_bind_eq_error_iff.mp h
  · rw [scope, projectPaths] at h
    split_ifs at h
    exact .read _ (except_map_eq_error_iff.mp h)
  obtain h | ⟨global, -, h⟩ := except_bind_eq_error_iff.mp h
  · rw [useGlobal] at h
    split_ifs at h
    exact .read _ (except_map_eq_error_iff.mp h)
  · exact retrieve_eq_error h

/-- Routing is only an optimisation. Whatever the router's model replies or raises and whatever
the index config is, a question in mode `auto` has the prompt that it has in mode `local` or in
mode `global`, the latter only where it names no project and there are summaries, unless it names
none and the look for summaries raises; and where there is no prompt in a mode, the embedding
model, Qdrant or a read of the store has raised. -/
theorem auto_prompt (w : QueryWorld ε α σ) (question : Text) :
    (w.buildPrompt question .auto = w.buildPrompt question .local ∨
      w.projectPaths question = .ok none ∧
        (w.buildPrompt question .auto = w.buildPrompt question .global ∧
            relevant w.communities ≠ [] ∨
          ∃ e, w.reads .hasCommunitySummaries = .error e ∧
            w.buildPrompt question .auto = .error e)) ∧
    ∀ mode e, w.buildPrompt question mode = .error e → w.Raises question e := by
  constructor
  · obtain h | ⟨hpaths, ⟨h, hsummaries⟩ | ⟨e, hread, h⟩⟩ := buildContext_auto w question
    · exact Or.inl (congrArg (Except.map (Context.prompt question)) h)
    · exact Or.inr ⟨hpaths,
        Or.inl ⟨congrArg (Except.map (Context.prompt question)) h, hsummaries⟩⟩
    · exact Or.inr ⟨hpaths,
        Or.inr ⟨e, hread, congrArg (Except.map (Context.prompt question)) h⟩⟩
  · intro mode e h
    exact buildContext_eq_error (except_map_eq_error_iff.mp h)

end Modes

section Contents

/-- What a prompt of local retrieval is made of: as many of the retrieved texts as the limit
allows, at least one if there is one, each of them whole and once as it was retrieved. -/
theorem local_prompt (ctx : LocalContext) (question : Text) : ∃ shown,
    Shown ctx.chunkTexts shown ∧
    Context.prompt question (.local ctx) = promptStart ++ text "Entities:\n" ++
      blockOf (join (text "\n") (ctx.entities.map entityLine)) ++ text "\n\nRelationships:\n" ++
      blockOf (join (text "\n") (ctx.relationships.map (relationshipLine ctx.entities))) ++
      text "\n\nSupporting text:\n" ++ blockOf (join (text "\n\n") shown) ++
      text "\n\nQuestion: " ++ question ++ text "\nAnswer:" := by
  have hshown : Shown ([] ++ ctx.chunkTexts) (takeTexts [] (totalLength []) ctx.chunkTexts) :=
    shown_takeTexts (Or.inl (Nat.zero_le 1))
  refine ⟨takeTexts [] 0 ctx.chunkTexts, hshown, ?_⟩
  rw [Context.prompt, formatLocal, (format_promptTemplate ..).2, localBlock]
  simp only [List.append_assoc]

theorem nodup_communities (w : QueryWorld ε α σ) : w.communities.Nodup := by
  apply List.Nodup.of_map CommunityRow.id
  rw [communities, Relational.Table.map_key_scan]
  exact Relational.nodup_orderBy _

/-- A prompt of global retrieval has the communities whose embeddings score best against the
question's, none of them twice, in the order of their scores; and where no embedding can be
compared with it, it is that of a local retrieval over all files. -/
theorem global_prompt [Preorder σ]
    (hsort : ∀ scores, IsArgsort scores (w.scoring.argsort scores)) {qVec : List α}
    (hembed : w.embed question = .ok qVec) : ∃ top : List CommunityRow, top.Nodup ∧
      Best (fun c d => scoreOf w.scoring qVec d ≤ scoreOf w.scoring qVec c) w.communityRetrievalN
        (usable w.communities qVec) top ∧
      w.buildPrompt question .global = (w.reads .getCommunities).bind fun _ =>
        if top = [] then (w.localRetrieve question none).map (Context.prompt question)
        else .ok (promptStart ++
          join (text "\n\n") (top.map fun c => communityBlock c.id c.summary) ++
          text "\n\nQuestion: " ++ question ++ text "\nAnswer:") := by
  obtain ⟨top, htop, hbest⟩ : ∃ top,
      globalRetrieve w.scoring w.communityRetrievalN w.communities (.ok qVec) =
        (.ok (contextOf top) : Except ε GlobalContext) ∧
      Best (fun c d => scoreOf w.scoring qVec d ≤ scoreOf w.scoring qVec c)
        w.communityRetrievalN (usable w.communities qVec) top := globalRetrieve_eq hsort qVec
  have hnodup : (usable w.communities qVec).Nodup :=
    ((nodup_communities w).filter _).filter _
  refine ⟨top, hbest.nodup hnodup, hbest, ?_⟩
  rw [buildPrompt, buildContext_global, retrieve, if_pos rfl, hembed, htop]
  cases w.reads .getCommunities with
  | error e => rfl
  | ok u =>
  change Except.map _ (if (contextOf top).communitySummaries = [] then _ else _) =
    if top = [] then _ else _
  by_cases hnil : top = []
  · rw [if_pos hnil, if_pos (by rw [hnil]; rfl)]
  · have hsummaries : (contextOf top).communitySummaries ≠ [] := by
      rw [contextOf]
      exact mt List.map_eq_nil_iff.mp hnil
    rw [if_neg hnil, if_neg hsummaries]
    change Except.ok (formatGlobal (contextOf top) question) = _
    rw [formatGlobal, (format_promptTemplate ..).2, contextOf, List.zipWith_map]
    rw [List.zipWith_self]

theorem global_prompt_twoProjects : ∃ top : List CommunityRow,
    Best (fun c d => scoreOf twoProjects.scoring [()] d ≤ scoreOf twoProjects.scoring [()] c) 5
      (usable twoProjects.communities [()]) top ∧
    twoProjects.buildPrompt aboutGraphRag .global =
      if top = [] then (twoProjects.localRetrieve aboutGraphRag none).map
        (Context.prompt aboutGraphRag)
      else .ok (promptStart ++
        join (text "\n\n") (top.map fun c => communityBlock c.id c.summary) ++
        text "\n\nQuestion: " ++ aboutGraphRag ++ text "\nAnswer:") := by
  have hembed : twoProjects.embed aboutGraphRag = .ok [()] := rfl
  obtain ⟨top, -, hbest, hprompt⟩ := global_prompt isArgsort_mergeArgsort hembed
  exact ⟨top, hbest, hprompt⟩

end Contents

end QueryWorld

end LocalGraphRag.Rag
