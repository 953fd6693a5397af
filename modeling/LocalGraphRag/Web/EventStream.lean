import LocalGraphRag.Browser.JsonRoundTrip
import LocalGraphRag.Sequences.LineReader
import LocalGraphRag.Web.Streaming

/-!
# The event stream

The response writes every chunk as a line of JSON and an empty one. The page reads the body in
whatever pieces the network makes of it, and takes the text out of every line that is complete.

## Implementation notes

What `_iterSSEDeltas` yields is a list, since the loop that takes it does nothing else to the
reader. `res.body` ends where the pieces do.
-/

namespace LocalGraphRag.Web

open LocalGraphRag.Python LocalGraphRag.Browser LocalGraphRag.Sequences

section Server
variable (requestId : Text) (created : ℕ) (model : Text)

def chunkJson (content finishReason : Option Text) : Json :=
  .obj [(text "id", .str requestId), (text "object", .str (text "chat.completion.chunk")),
    (text "created", .num (natText created)), (text "model", .str model),
    (text "choices", .arr [.obj [(text "index", .num (natText 0)),
      (text "delta", .obj (content.elim [] fun c => [(text "content", .str c)])),
      (text "finish_reason", finishReason.elim .null .str)]])]

def makeStreamChunk (content finishReason : Option Text) : Text :=
  text "data: " ++ Json.dumps (chunkJson requestId created model content finishReason) ++
    text "\n\n"

/-- What the response yields for a chunk. -/
def eventText : Chunk → Text
  | .done => text "data: [DONE]\n\n"
  | .stop => makeStreamChunk requestId created model none (some (text "stop"))
  | chunk => makeStreamChunk requestId created model chunk.delta none

/-- The body of a response, as far as it was sent. -/
def body (chunks : List Chunk) : Bytes := utf8 (chunks.flatMap (eventText requestId created model))

end Server

section Client

/-- `chunk?.choices?.[0]?.delta?.content`, where it counts as true. -/
def chunkDelta (chunk : JsValue) : Option JsValue := do
  let choices ← chunk.prop (jsText "choices")
  let choice ← choices.first
  let delta ← choice.prop (jsText "delta")
  let content ← delta.prop (jsText "content")
  if content.isTruthy then some content else none

/-- A round of the loop over the lines. -/
def lineDelta (line : JsText) : Option JsValue :=
  if (jsText "data: ").isPrefixOf line then
    let payload := trim (line.drop (jsText "data: ").length)
    if payload = jsText "[DONE]" then none else (jsonParse payload).bind chunkDelta
  else none

/-- `_iterSSEDeltas`, from a decoder and a buffer on. -/
def iterSSEDeltas (decoder : TextDecoder) (buf : JsText) : List Bytes → List JsValue
  | [] => []
  | value :: reads =>
      let decoded := decoder.decode value
      let lines := (buf ++ decoded.1).splitOn (unit '\n')
      lines.dropLast.filterMap lineDelta ++
        iterSSEDeltas decoded.2 (lines.getLastD []) reads

end Client

/-- The texts of the chunks that have one. -/
def deltas (chunks : List Chunk) : List Text := (chunks.filterMap Chunk.delta).filter (· ≠ [])

theorem deltas_cons (chunk : Chunk) (chunks : List Chunk) :
    deltas (chunk :: chunks) = (chunk.delta.filter (· ≠ [])).toList ++ deltas chunks := by
  rw [deltas, List.filterMap_cons]
  cases chunk.delta with
  | none => rfl
  | some t =>
      by_cases ht : t = []
      · simp [ht, deltas]
      · simp [ht, deltas, Option.filter]

section Lines
variable (requestId : Text) (created : ℕ) (model : Text)

theorem numbersReadBack_chunkJson (content finishReason : Option Text) :
    NumbersReadBack (chunkJson requestId created model content finishReason) := by
  cases content <;> cases finishReason <;>
    simp [chunkJson, NumbersReadBack, ItemsReadBack, MembersReadBack, readBack_natText]

theorem dumpsMembers_ends (members : List (Text × Json)) :
    ∃ s, Json.dumpsMembers members = s ++ [cp '\x7d'] := by
  induction members with
  | nil => exact ⟨[], rfl⟩
  | cons m ms ih =>
      cases ms with
      | nil => exact ⟨_, rfl⟩
      | cons m' ms =>
          obtain ⟨s, hs⟩ := ih
          refine ⟨Json.dumpsString m.1 ++ text ": " ++ Json.dumps m.2 ++ text ", " ++ s, ?_⟩
          rw [dumpsMembers_cons, hs, List.append_assoc _ s]

/-- There is nothing to trim from an object. -/
theorem trim_dumps_obj (members : List (Text × Json)) :
    trim (utf16 (Json.dumps (.obj members))) = utf16 (Json.dumps (.obj members)) := by
  obtain ⟨s, hs⟩ := dumpsMembers_ends members
  have hunits : utf16 (Json.dumps (.obj members)) = unit '\x7b' :: utf16 s ++ [unit '\x7d'] := by
    rw [Json.dumps, hs, utf16_cp (by decide), utf16_append, List.cons_append]
    rfl
  rw [hunits]
  exact trim_eq_self (by decide) (by decide)

theorem lineDelta_data (payload : JsText) : lineDelta (jsText "data: " ++ payload) =
    if trim payload = jsText "[DONE]" then none
    else (jsonParse (trim payload)).bind chunkDelta := by
  have hprefix : (jsText "data: ").isPrefixOf (jsText "data: " ++ payload) = true :=
    List.isPrefixOf_iff_prefix.mpr (List.prefix_append _ _)
  rw [lineDelta, if_pos hprefix, List.drop_left]

theorem chunkDelta_ofJson (content finishReason : Option Text) :
    chunkDelta (ofJson (chunkJson requestId created model content finishReason)) =
      (content.filter (· ≠ [])).map fun t => .str (utf16 t) := by
  cases content with
  | none => rfl
  | some t =>
      have hcontent :
          chunkDelta (ofJson (chunkJson requestId created model (some t) finishReason)) =
            if (JsValue.str (utf16 t)).isTruthy then some (.str (utf16 t)) else none := rfl
      rw [hcontent, JsValue.isTruthy]
      by_cases ht : t = []
      · rw [ht]
        rfl
      · simp [ht, utf16_eq_nil_iff]


/-- A line gives the text of its chunk, where there is one. -/
theorem lineDelta_makeStreamChunk (content finishReason : Option Text) :
    lineDelta (utf16 (text "data: " ++
      Json.dumps (chunkJson requestId created model content finishReason))) =
        (content.filter (· ≠ [])).map fun t => .str (utf16 t) := by
  have hparse := jsonParse_dumps
    (numbersReadBack_chunkJson requestId created model content finishReason)
  have hne : utf16 (Json.dumps (chunkJson requestId created model content finishReason)) ≠
      jsText "[DONE]" := by
    intro h
    have hhead := congrArg List.head? h
    rw [chunkJson, Json.dumps, utf16_cp (by decide)] at hhead
    exact absurd (Option.some.inj hhead) (by decide)
  have htrim : trim (utf16 (Json.dumps (chunkJson requestId created model content finishReason))) =
      utf16 (Json.dumps (chunkJson requestId created model content finishReason)) :=
    trim_dumps_obj _
  rw [utf16_append, ← jsText, lineDelta_data, htrim, if_neg hne, hparse, Option.bind_some,
    chunkDelta_ofJson]

theorem newline_notMem {s : Text} (h : Printable s) : unit '\n' ∉ utf16 s := by
  intro hmem
  obtain ⟨c, hc, hmem⟩ := List.mem_flatMap.mp hmem
  have hrange := h c hc
  rw [utf16Char, if_pos (by omega), List.mem_singleton] at hmem
  have hval := congrArg Fin.val hmem
  rw [codeUnit, Fin.val_ofNat, Nat.mod_eq_of_lt (by omega)] at hval
  have hnewline : (unit '\n').val = 0x0a := by decide
  omega

/-- What a chunk is on the wire: printable text without a line break, and two of them. -/
theorem eventText_eq (chunk : Chunk) : ∃ line, Printable line ∧
    eventText requestId created model chunk = line ++ text "\n\n" ∧
      lineDelta (utf16 line) = (chunk.delta.filter (· ≠ [])).map fun t => .str (utf16 t) := by
  have hjson : ∀ content finishReason, ∃ line, Printable line ∧
      makeStreamChunk requestId created model content finishReason = line ++ text "\n\n" ∧
        lineDelta (utf16 line) = (content.filter (· ≠ [])).map fun t => .str (utf16 t) := by
    intro content finishReason
    refine ⟨_, ?_, rfl, lineDelta_makeStreamChunk requestId created model content finishReason⟩
    exact Printable.append (by decide) (printable_dumps _ (numbersReadBack_chunkJson ..))
  cases chunk with
  | done =>
      have htext : text "data: [DONE]\n\n" = text "data: [DONE]" ++ text "\n\n" := by decide
      refine ⟨text "data: [DONE]", by decide, htext, ?_⟩
      have hsplit : utf16 (text "data: [DONE]") = jsText "data: " ++ jsText "[DONE]" := by decide
      rw [hsplit, lineDelta_data, if_pos (by decide)]
      rfl
  | stop => exact hjson none _
  | content t => exact hjson _ none
  | generationError => exact hjson _ none
  | timedOut => exact hjson _ none
  | atCapacity => exact hjson _ none

/-- The body is made of whole lines, and their deltas are those of the chunks. -/
theorem body_lines (chunks : List Chunk) : ∃ lines : List JsText,
    utf16 (chunks.flatMap (eventText requestId created model)) = endLines (unit '\n') lines ∧
      (∀ line ∈ lines, unit '\n' ∉ line) ∧
        lines.filterMap lineDelta = (deltas chunks).map fun t => .str (utf16 t) := by
  induction chunks with
  | nil => exact ⟨[], rfl, by simp, rfl⟩
  | cons chunk chunks ih =>
      obtain ⟨lines, hlines, hnewline, hdeltas⟩ := ih
      obtain ⟨line, hprintable, hline, hdelta⟩ := eventText_eq requestId created model chunk
      refine ⟨utf16 line :: [] :: lines, ?_, ?_, ?_⟩
      · rw [List.flatMap_cons, utf16_append, hlines, hline, utf16_append, List.append_assoc]
        simp [endLines]
        rfl
      · simpa using ⟨newline_notMem hprintable, hnewline⟩
      · have hempty : lineDelta [] = none := rfl
        rw [deltas_cons, List.filterMap_cons, hdelta, List.filterMap_cons_none hempty, hdeltas]
        cases chunk.delta.filter (· ≠ []) <;> rfl

theorem ascii_body (chunks : List Chunk) :
    ∀ c ∈ chunks.flatMap (eventText requestId created model), c.val < 0x80 := by
  intro c hc
  obtain ⟨chunk, -, hc⟩ := List.mem_flatMap.mp hc
  obtain ⟨line, hprintable, hline, -⟩ := eventText_eq requestId created model chunk
  rw [hline] at hc
  obtain hc | hc := List.mem_append.mp hc
  · have hrange := hprintable c hc
    omega
  · have hbreaks : text "\n\n" = [0x0a, 0x0a] := by decide
    rw [hbreaks, List.mem_pair, or_self] at hc
    rw [hc]
    decide

end Lines

section Reading

/-- Pieces of ASCII are read as one reader reads their lines. -/
theorem iterSSEDeltas_ascii {decoder : TextDecoder} (hdecoder : decoder.needed = 0)
    (buf : JsText) {reads : List Bytes} (h : ∀ read ∈ reads, ∀ byte ∈ read, byte.val < 0x80) :
    iterSSEDeltas decoder buf reads =
      (readAll (unit '\n') buf (reads.map (List.map widen))).1.filterMap lineDelta := by
  induction reads generalizing decoder buf with
  | nil => rfl
  | cons read reads ih =>
      obtain ⟨hread, hreads⟩ := List.forall_mem_cons.mp h
      obtain ⟨htext, hneeded⟩ := decode_ascii hdecoder hread
      rw [iterSSEDeltas, ih hneeded _ hreads, htext, List.map_cons, readAll, List.filterMap_append]
      rfl

variable {requestId : Text} {created : ℕ} {model : Text} {chunks : List Chunk}

/-- The page reads the lines of what it got. -/
theorem iterSSEDeltas_eq {reads : List Bytes}
    (h : reads.flatten <+: body requestId created model chunks) :
    iterSSEDeltas .new [] reads =
      (splitLines (unit '\n') (reads.flatten.map widen)).1.filterMap lineDelta := by
  have hascii := ascii_utf8 (ascii_body requestId created model chunks)
  have hreads : ∀ read ∈ reads, ∀ byte ∈ read, byte.val < 0x80 := by
    intro read hread byte hbyte
    exact hascii byte (h.subset (List.mem_flatten.mpr ⟨read, hread, hbyte⟩))
  rw [iterSSEDeltas_ascii rfl [] hreads, readAll_eq (by simp), List.nil_append, List.map_flatten]

theorem splitLines_body (requestId : Text) (created : ℕ) (model : Text) (chunks : List Chunk) :
    (splitLines (unit '\n') ((body requestId created model chunks).map widen)).1.filterMap
      lineDelta = (deltas chunks).map fun t => .str (utf16 t) := by
  obtain ⟨lines, hlines, hnewline, hdeltas⟩ := body_lines requestId created model chunks
  rw [body, widen_utf8 (ascii_body _ _ _ _), hlines, ← List.append_nil (endLines _ _),
    splitLines_endLines hnewline, splitLines_nil, List.append_nil, hdeltas]

/-- A page that has read a whole body has the text of every chunk that has one, in order and
once, however the body came. -/
theorem iterSSEDeltas_body {reads : List Bytes}
    (h : reads.flatten = body requestId created model chunks) :
    iterSSEDeltas .new [] reads = (deltas chunks).map fun t => .str (utf16 t) := by
  have hprefix : reads.flatten <+: body requestId created model chunks := by rw [h]
  rw [iterSSEDeltas_eq hprefix, h, splitLines_body]

/-- A page that has read a part of it has some of them from the first on. -/
theorem iterSSEDeltas_prefix {reads : List Bytes}
    (h : reads.flatten <+: body requestId created model chunks) :
    iterSSEDeltas .new [] reads <+: (deltas chunks).map fun t => .str (utf16 t) := by
  rw [iterSSEDeltas_eq h, ← splitLines_body requestId created model chunks]
  apply List.IsPrefix.filterMap
  exact splitLines_prefix (h.map widen)

/-- What a page has of an answer does not depend on the pieces in which its body came: a part
of the body gives the first texts of the chunks, and all of it gives each of them once. -/
theorem eventStream_delivers {reads : List Bytes}
    (h : reads.flatten <+: body requestId created model chunks) :
    iterSSEDeltas .new [] reads <+: ((deltas chunks).map fun t => .str (utf16 t)) ∧
      (reads.flatten = body requestId created model chunks →
        iterSSEDeltas .new [] reads = (deltas chunks).map fun t => .str (utf16 t)) := by
  constructor
  · exact iterSSEDeltas_prefix h
  · exact iterSSEDeltas_body

/-- An answer with a line break, an accent and a character of two code units. -/
def spokenAnswer : List Chunk :=
  [.content (text "Voil\u00e0"), .content [], .content (0x0a :: [0x1f600]), .stop, .done]

theorem eventStream_delivers_sample :
    iterSSEDeltas .new []
      [(body (text "chatcmpl-1") 7 (text "qwen") spokenAnswer).take 100,
        (body (text "chatcmpl-1") 7 (text "qwen") spokenAnswer).drop 100] =
      [.str (jsText "Voil\u00e0"), .str [0x0a, 0xd83d, 0xde00]] := by
  have hflatten : ∀ b : Bytes, [b.take 100, b.drop 100].flatten = b := by simp
  refine (eventStream_delivers ?_).2 (hflatten _)
  rw [hflatten]

end Reading

end LocalGraphRag.Web
