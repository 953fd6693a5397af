import LocalGraphRag.Python.Split
import LocalGraphRag.Python.Strip
import Mathlib.Algebra.Order.BigOperators.Group.List

/-!
# Chat requests

A request has a history of messages, whose contents are texts or lists of parts. It is measured
message by message, and its question is the text of its last user message. Nothing else of it
gets to the pipeline but the model and the mode.

## Implementation notes

What pydantic has parsed is the input here: the roles are those of the schema, and a part is a
dictionary of texts. An `HTTPException` is its status and detail.
-/

namespace LocalGraphRag.Web

open LocalGraphRag.Python

inductive ChatRole where
  | user
  | assistant
  | system
  | tool
  deriving DecidableEq

/-- The content of a message: `str`, or `list[dict[str, str]]`. -/
inductive ChatContent where
  | str (s : Text)
  | parts (items : List (List (Text × Text)))
  deriving DecidableEq

structure ChatMessage where
  role : ChatRole
  content : ChatContent
  deriving DecidableEq

/-- The limits of the settings. -/
structure ChatLimits where
  maxContentItems : ℕ
  maxMessageChars : ℕ
  maxTotalChars : ℕ
  maxQuestionChars : ℕ

def partSize (item : List (Text × Text)) : ℕ := (item.map fun v => v.2.length).sum

/-- `_message_size`. -/
def messageSize : ChatContent → ℕ
  | .str s => s.length
  | .parts items => (items.map partSize).sum

def itemCount : ChatContent → ℕ
  | .str _ => 0
  | .parts items => items.length

/-- `HTTPException(status_code=400, detail=detail)`. -/
def badRequest (detail : String) : ℕ × Text := (400, text detail)

section Validation
variable (limits : ChatLimits) (chatModels : List Text)

/-- The loop of `validate_chat_request`, with the characters so far. -/
def validateMessages : ℕ → List ChatMessage → Except (ℕ × Text) Unit
  | _, [] => .ok ()
  | totalChars, m :: messages =>
      if limits.maxMessageChars < messageSize m.content then
        .error (badRequest "Chat message exceeds size limit")
      else if limits.maxTotalChars < totalChars + messageSize m.content then
        .error (badRequest "Chat request exceeds total size limit")
      else if limits.maxContentItems < itemCount m.content then
        .error (badRequest "Structured message has too many items")
      else validateMessages (totalChars + messageSize m.content) messages

def validateChatRequest (model : Text) (messages : List ChatMessage) : Except (ℕ × Text) Unit :=
  if model ∈ chatModels then validateMessages limits 0 messages
  else .error (400, text "Model not available; use one of: " ++ join (text ", ") chatModels)

/-- The text of a content, before it is stripped. -/
def contentText : ChatContent → Text
  | .str s => s
  | .parts items =>
      join (text " ") (items.map fun item => (item.lookup (text "text")).getD [])

def extractQuestionFromMessages (messages : List ChatMessage) : Except (ℕ × Text) Text :=
  match messages.reverse.find? fun m => m.role = .user with
  | none => .error (badRequest "Chat request must include a user message")
  | some m =>
      let question := strip (contentText m.content)
      if question = [] then .error (badRequest "Last user message content is empty")
      else if limits.maxQuestionChars < question.length then
        .error (badRequest "Question exceeds size limit")
      else .ok question

/-- What `chat` does before it answers. -/
def chatQuestion (model : Text) (messages : List ChatMessage) : Except (ℕ × Text) Text := do
  validateChatRequest limits chatModels model messages
  extractQuestionFromMessages limits messages

end Validation

section Acceptance
variable {limits : ChatLimits} {chatModels : List Text} {model question : Text}
  {messages : List ChatMessage} {m : ChatMessage}

/-- The messages are within the limits, each and together. -/
structure WithinLimits (limits : ChatLimits) (messages : List ChatMessage) : Prop where
  message : ∀ m ∈ messages, messageSize m.content ≤ limits.maxMessageChars
  items : ∀ m ∈ messages, itemCount m.content ≤ limits.maxContentItems
  total : (messages.map fun m => messageSize m.content).sum ≤ limits.maxTotalChars

theorem validateMessages_ok_iff {totalChars : ℕ} (htotal : totalChars ≤ limits.maxTotalChars) :
    validateMessages limits totalChars messages = .ok () ↔
      (∀ m ∈ messages, messageSize m.content ≤ limits.maxMessageChars ∧
        itemCount m.content ≤ limits.maxContentItems) ∧
      totalChars + (messages.map fun m => messageSize m.content).sum ≤ limits.maxTotalChars := by
  induction messages generalizing totalChars with
  | nil => simpa [validateMessages] using htotal
  | cons m messages ih =>
      rw [validateMessages, List.map_cons, List.sum_cons, List.forall_mem_cons]
      split_ifs with hmessage hsum hitems
      · simp only [false_iff]
        omega
      · simp only [false_iff]
        omega
      · simp only [false_iff]
        omega
      · rw [ih (by omega)]
        constructor
        · rintro ⟨hall, hle⟩
          exact ⟨⟨⟨by omega, by omega⟩, hall⟩, by omega⟩
        · rintro ⟨⟨-, hall⟩, hle⟩
          exact ⟨hall, by omega⟩

theorem validateChatRequest_ok_iff :
    validateChatRequest limits chatModels model messages = .ok () ↔
      model ∈ chatModels ∧ WithinLimits limits messages := by
  rw [validateChatRequest]
  split_ifs with hmodel
  · rw [validateMessages_ok_iff (Nat.zero_le _), Nat.zero_add]
    constructor
    · rintro ⟨hall, htotal⟩
      exact ⟨hmodel, fun m hm => (hall m hm).1, fun m hm => (hall m hm).2, htotal⟩
    · rintro ⟨-, h⟩
      exact ⟨fun m hm => ⟨h.message m hm, h.items m hm⟩, h.total⟩
  · simp [hmodel]

/-- The last user message. -/
theorem find_user_iff : (messages.reverse.find? fun m => m.role = .user) = some m ↔
    ∃ before after, messages = before ++ m :: after ∧ m.role = .user ∧
      ∀ m' ∈ after, m'.role ≠ .user := by
  rw [List.find?_eq_some_iff_append]
  constructor
  · rintro ⟨hm, later, earlier, hmessages, hlater⟩
    refine ⟨earlier.reverse, later.reverse, ?_, of_decide_eq_true hm, ?_⟩
    · rw [← List.reverse_reverse messages, hmessages]
      simp
    · intro m' hm'
      simpa using hlater m' (List.mem_reverse.mp hm')
  · rintro ⟨before, after, rfl, hm, hafter⟩
    refine ⟨decide_eq_true hm, after.reverse, before.reverse, by simp, ?_⟩
    intro m' hm'
    simpa using hafter m' (List.mem_reverse.mp hm')

theorem extractQuestion_ok_iff : extractQuestionFromMessages limits messages = .ok question ↔
    ∃ m, (messages.reverse.find? fun m => m.role = .user) = some m ∧
      strip (contentText m.content) = question ∧ question ≠ [] ∧
        question.length ≤ limits.maxQuestionChars := by
  rw [extractQuestionFromMessages]
  split
  · next hnone => simp [hnone]
  · next m hm =>
      simp only [hm, Option.some.injEq, exists_eq_left']
      split_ifs with hempty hlong
      · simp only [false_iff]
        rintro ⟨rfl, hne, -⟩
        exact hne hempty
      · simp only [false_iff]
        rintro ⟨rfl, -, hle⟩
        exact absurd hlong (not_lt.mpr hle)
      · simp only [Except.ok.injEq]
        constructor
        · rintro rfl
          exact ⟨rfl, hempty, not_lt.mp hlong⟩
        · rintro ⟨rfl, -, -⟩
          rfl

/-- A dictionary has no value longer than all of them. -/
theorem length_lookup_le (item : List (Text × Text)) (key : Text) :
    ((item.lookup key).getD []).length ≤ partSize item := by
  induction item with
  | nil => exact Nat.zero_le _
  | cons v item ih =>
      obtain ⟨name, value⟩ := v
      rw [partSize, List.map_cons, List.sum_cons]
      rw [partSize] at ih
      cases hkey : key == name with
      | true =>
          simp only [List.lookup_cons, hkey, Option.getD_some]
          exact Nat.le_add_right _ _
      | false =>
          simp only [List.lookup_cons, hkey]
          exact ih.trans (Nat.le_add_left _ _)

/-- The text of a content is no longer than what was measured and the blanks between parts. -/
theorem length_contentText_le (content : ChatContent) :
    (contentText content).length ≤ messageSize content + (itemCount content - 1) := by
  cases content with
  | str s => exact Nat.le_add_right _ _
  | parts items =>
      rw [contentText, messageSize, itemCount]
      induction items with
      | nil => exact Nat.zero_le _
      | cons item items ih =>
          have hitem := length_lookup_le item (text "text")
          rw [List.map_cons, length_join_cons, List.map_cons, List.sum_cons, List.length_cons]
          by_cases hitems : items = []
          · subst hitems
            simpa [join] using hitem
          · have hpos := List.length_pos_of_ne_nil hitems
            have hne : items.map (fun item => (item.lookup (text "text")).getD []) ≠ [] := by
              simpa using hitems
            have hblank : (text " ").length = 1 := by decide
            rw [if_pos hne, hblank]
            omega

/-- A request gets to the pipeline exactly if its model is allowed, its messages are within the
limits, each and together, and the text of its last user message is, stripped, a question of no
more than the allowed length. This last check refuses nothing where the limits fit together. -/
theorem chatQuestion_ok_iff :
    (chatQuestion limits chatModels model messages = .ok question ↔
      model ∈ chatModels ∧ WithinLimits limits messages ∧
        ∃ before m after, messages = before ++ m :: after ∧ m.role = .user ∧
          (∀ m' ∈ after, m'.role ≠ .user) ∧ strip (contentText m.content) = question ∧
            question ≠ [] ∧ question.length ≤ limits.maxQuestionChars) ∧
    (limits.maxMessageChars + (limits.maxContentItems - 1) ≤ limits.maxQuestionChars →
      validateChatRequest limits chatModels model messages = .ok () →
        extractQuestionFromMessages limits messages ≠
          .error (badRequest "Question exceeds size limit")) := by
  constructor
  · have hbind : chatQuestion limits chatModels model messages = .ok question ↔
        validateChatRequest limits chatModels model messages = .ok () ∧
          extractQuestionFromMessages limits messages = .ok question := by
      rw [chatQuestion]
      cases validateChatRequest limits chatModels model messages with
      | error e => exact ⟨nofun, fun h => nomatch h.1⟩
      | ok u => exact ⟨fun h => ⟨rfl, h⟩, And.right⟩
    rw [hbind, validateChatRequest_ok_iff, extractQuestion_ok_iff, and_assoc]
    simp only [find_user_iff]
    constructor
    · rintro ⟨hmodel, hlimits, m, ⟨before, after, hmessages, hrole, hafter⟩, hquestion⟩
      exact ⟨hmodel, hlimits, before, m, after, hmessages, hrole, hafter, hquestion⟩
    · rintro ⟨hmodel, hlimits, before, m, after, hmessages, hrole, hafter, hquestion⟩
      exact ⟨hmodel, hlimits, m, ⟨before, after, hmessages, hrole, hafter⟩, hquestion⟩
  · intro hfit hvalid
    obtain ⟨-, hlimits⟩ := validateChatRequest_ok_iff.mp hvalid
    rw [extractQuestionFromMessages]
    split
    · decide
    · next m hm =>
        have hmem : m ∈ messages := List.mem_reverse.mp (List.mem_of_find?_eq_some hm)
        have hlength : (strip (contentText m.content)).length ≤ (contentText m.content).length :=
          (List.rdropWhile_prefix isSpace _).length_le.trans
            (List.dropWhile_suffix isSpace).length_le
        have htext := length_contentText_le m.content
        have hmessage := hlimits.message m hmem
        have hitems := hlimits.items m hmem
        have hshort : ¬ limits.maxQuestionChars < (strip (contentText m.content)).length := by
          omega
        simp only [hshort, if_false]
        split_ifs
        · decide
        · nofun

/-- The defaults of the settings, which fit together. -/
def defaultLimits : ChatLimits := ⟨32, 8000, 120000, 12000⟩

example : defaultLimits.maxMessageChars + (defaultLimits.maxContentItems - 1) ≤
    defaultLimits.maxQuestionChars := by decide

def history : List ChatMessage :=
  [⟨.user, .str (text "Who is Alice?")⟩, ⟨.assistant, .str (text "A writer.")⟩]

/-- A question about an answer, in two parts. -/
def followUp : ChatMessage :=
  ⟨.user, .parts [[(text "type", text "text"), (text "text", text " And")],
    [(text "text", text "Bob? ")]]⟩

theorem chatQuestion_ok_iff_followUp :
    chatQuestion defaultLimits [text "qwen"] (text "qwen") (history ++ [followUp]) =
      .ok (text "And Bob?") := by
  have hlimits : WithinLimits defaultLimits (history ++ [followUp]) :=
    ⟨by decide, by decide, by decide⟩
  exact chatQuestion_ok_iff.1.mpr ⟨by decide, hlimits, history, followUp, [], rfl, rfl, nofun,
    by decide, by decide, by decide⟩

end Acceptance

end LocalGraphRag.Web
