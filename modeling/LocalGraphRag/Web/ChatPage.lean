import LocalGraphRag.Systems.Runs
import LocalGraphRag.Web.AnswerDelivery

/-!
# The chat page

A message is sent, its answer comes in pieces, and the page draws it at most once a frame, as
far as it has come, and once more at the end. Stops, failures and frames come at any moment.
What stands on the page is the record of the messages.

## Implementation notes

A node of the page has an id, as an element has its identity. Each call of `sendMessage` that
gets past its first check stays in the state, with the pieces that it was given as a history
variable. What runs between two awaits is one step. What marked and DOMPurify make of a text,
and the conversion of a value to a string, are parameters. The views and the focus are left out.
-/

namespace LocalGraphRag.Web

open LocalGraphRag.Python LocalGraphRag.Systems LocalGraphRag.Browser LocalGraphRag.Rag

/-- The libraries of the page. -/
structure Rendering (η : Type) where
  html : JsText → η
  toText : JsValue → JsText

/-- What is put into `messages`. An answer may have the mark of a stop behind it. -/
inductive Element (η : Type) where
  | user (text : JsText)
  | thinking
  | assistant (html : η) (stopped : Bool)
  | error (message : JsText)
  deriving DecidableEq

/-- The mark of a stop is put behind an answer. -/
def Element.mark {η : Type} : Element η → Element η
  | .assistant html _ => .assistant html true
  | e => e

/-- What `_lockUi` and `_unlockUi` set. -/
structure Controls where
  sendDisabled : Bool
  sendHidden : Bool
  stopHidden : Bool
  modelDisabled : Bool
  modeDisabled : Bool
  deriving DecidableEq

def Controls.locked : Controls := ⟨true, true, false, true, true⟩

def Controls.unlocked : Controls := ⟨false, false, true, false, false⟩

inductive CallEnd where
  | answered
  | noResponse
  | unauthorized
  | serverError (status : ℕ) (body : JsText)
  | stopped
  | failed (message : JsText)
  deriving DecidableEq

/-- Where a call of `sendMessage` waits. -/
inductive SendPhase where
  | fetching
  | readingError (status : ℕ)
  | streaming
  | ended (outcome : CallEnd)
  deriving DecidableEq

/-- A call of `sendMessage` and of `_renderStream`, with their variables. -/
structure SendCall where
  text : JsText
  thinking : ℕ
  phase : SendPhase
  div : Option ℕ
  accumulated : JsText
  frame : ℕ
  aborted : Bool
  deltas : List JsValue

def SendCall.HasEnded (c : SendCall) : Prop := ∃ outcome, c.phase = .ended outcome

structure ChatPage (η : Type) where
  controls : Controls
  abortCtl : Option ℕ
  nodes : List (ℕ × Element η)
  nextNode : ℕ
  calls : List SendCall
  callbacks : List (ℕ × ℕ)
  nextHandle : ℕ

inductive PageEvent where
  | send (input : JsText)
  | stop
  | responds (i : ℕ) (status : ℕ)
  | errorBody (i : ℕ) (body : JsText)
  | delta (i : ℕ) (d : JsValue)
  | streamEnds (i : ℕ)
  | aborts (i : ℕ)
  | fails (i : ℕ) (message : JsText)
  | frame (handle : ℕ)

def noResponseMessage : JsText := jsText "No response received."

def serverErrorMessage (status : ℕ) (body : JsText) : JsText :=
  jsText "Server error " ++ utf16 (natText status) ++
    if body = [] then [] else jsText ": " ++ body

def requestFailedMessage (message : JsText) : JsText := jsText "Request failed: " ++ message

def stoppedMessage : JsText := jsText "[stopped]"

namespace ChatPage

variable {η : Type} (r : Rendering η)

def start : ChatPage η := ⟨.unlocked, none, [], 0, [], [], 1⟩

section Dom

/-- `messagesEl.appendChild`. -/
def append (e : Element η) (σ : ChatPage η) : ChatPage η :=
  { σ with nodes := σ.nodes ++ [(σ.nextNode, e)], nextNode := σ.nextNode + 1 }

/-- `remove`, which does nothing to a node that is not there. -/
def remove (id : ℕ) (σ : ChatPage η) : ChatPage η :=
  { σ with nodes := σ.nodes.filter fun n => n.1 ≠ id }

def updateNode (id : ℕ) (f : Element η → Element η) (σ : ChatPage η) : ChatPage η :=
  { σ with nodes := σ.nodes.map fun n => if n.1 = id then (n.1, f n.2) else n }

def setCall (i : ℕ) (c : SendCall) (σ : ChatPage η) : ChatPage η :=
  { σ with calls := σ.calls.set i c }

end Dom

section Handlers

/-- `render`, the closure of a call. -/
def render (i : ℕ) (c : SendCall) (σ : ChatPage η) : ChatPage η :=
  match c.div with
  | some div =>
      (σ.setCall i { c with frame := 0 }).updateNode div fun _ =>
        .assistant (r.html c.accumulated) false
  | none => σ.setCall i { c with frame := 0 }

/-- The `finally` of `_renderStream`. -/
def flush (i : ℕ) (c : SendCall) (σ : ChatPage η) : ChatPage η :=
  let cancelled :=
    if c.frame = 0 then σ else { σ with callbacks := σ.callbacks.filter fun f => f.1 ≠ c.frame }
  if c.div = none then cancelled else render r i c cancelled

/-- The `finally` of `sendMessage`, with how the call has ended. -/
def finish (i : ℕ) (c : SendCall) (outcome : CallEnd) (σ : ChatPage η) : ChatPage η :=
  let removed := σ.remove c.thinking
  { removed with
    calls := removed.calls.set i { c with phase := .ended outcome, frame := 0 }
    controls := .unlocked
    abortCtl := none }

/-- Past the first check of `sendMessage`, up to its request. -/
def send (text : JsText) (σ : ChatPage η) : ChatPage η :=
  let shown := (σ.append (.user text)).append .thinking
  { shown with
    controls := .locked
    abortCtl := some σ.calls.length
    calls := σ.calls ++ [⟨text, σ.nextNode + 1, .fetching, none, [], 0, false, []⟩] }

/-- A round of the loop of `_renderStream`. -/
def addDelta (i : ℕ) (c : SendCall) (d : JsValue) (σ : ChatPage η) : ChatPage η :=
  let next := { c with accumulated := c.accumulated ++ r.toText d, deltas := c.deltas ++ [d] }
  if c.div = none then
    let removed := σ.remove c.thinking
    (removed.append (.assistant (r.html next.accumulated) false)).setCall i
      { next with div := some removed.nextNode }
  else if c.frame = 0 then
    { σ with
      calls := σ.calls.set i { next with frame := σ.nextHandle }
      callbacks := σ.callbacks ++ [(σ.nextHandle, i)]
      nextHandle := σ.nextHandle + 1 }
  else σ.setCall i next

/-- The handler of an `AbortError`. -/
def markStopped (c : SendCall) (σ : ChatPage η) : ChatPage η :=
  match c.div with
  | some div => σ.updateNode div Element.mark
  | none => σ.append (.error stoppedMessage)

end Handlers

/-- An event of a call that is in some phase. -/
def callStep (i : ℕ) (c : SendCall) (σ : ChatPage η) : PageEvent → Option (ChatPage η)
  | .responds _ status =>
      if c.phase ≠ .fetching then none
      else if status = 401 then some (σ.finish i c .unauthorized)
      else if 200 ≤ status ∧ status ≤ 299 then some (σ.setCall i { c with phase := .streaming })
      else some (σ.setCall i { c with phase := .readingError status })
  | .errorBody _ body =>
      match c.phase with
      | .readingError status =>
          some ((σ.append (.error (serverErrorMessage status body))).finish i c
            (.serverError status body))
      | _ => none
  | .delta _ d => if c.phase = .streaming then some (addDelta r i c d σ) else none
  | .streamEnds _ =>
      if c.phase = .streaming then
        let flushed := flush r i c σ
        if c.div = none then
          some ((flushed.append (.error noResponseMessage)).finish i c .noResponse)
        else some (flushed.finish i c .answered)
      else none
  | .aborts _ =>
      if c.aborted = false then none
      else if c.phase = .streaming then
        some ((markStopped c (flush r i c σ)).finish i c .stopped)
      else if c.phase = .fetching then some ((markStopped c σ).finish i c .stopped)
      else none
  | .fails _ message =>
      let failed := fun σ : ChatPage η =>
        (σ.append (.error (requestFailedMessage message))).finish i c (.failed message)
      if c.phase = .streaming then some (failed (flush r i c σ))
      else if c.phase = .fetching then some (failed σ)
      else none
  | _ => none

def step (σ : ChatPage η) (e : PageEvent) : Option (ChatPage η) :=
  match e with
  | .send input =>
      if trim input = [] ∨ σ.controls.sendDisabled = true then some σ
      else some (σ.send (trim input))
  | .stop => some <| match σ.abortCtl with
      | some i => { σ with calls := σ.calls.modify i fun c => { c with aborted := true } }
      | none => σ
  | .frame handle => do
      let f ← σ.callbacks.find? fun f => f.1 = handle
      let c ← σ.calls[f.2]?
      return render r f.2 c { σ with callbacks := σ.callbacks.filter fun f => f.1 ≠ handle }
  | .responds i _ | .errorBody i _ | .delta i _ | .streamEnds i | .aborts i | .fails i _ => do
      let c ← σ.calls[i]?
      callStep r i c σ e

section Records
variable (r : Rendering η)

/-- What a call was given, as a string. -/
def received (deltas : List JsValue) : JsText := (deltas.map r.toText).flatten

/-- What a call shows that has drawn these pieces. -/
def showing (shown : List JsValue) : Element η :=
  if shown = [] then .thinking else .assistant (r.html (received r shown)) false

/-- What a call that has ended leaves behind its message. -/
def outcomeElements (deltas : List JsValue) : CallEnd → List (Element η)
  | .answered => [.assistant (r.html (received r deltas)) false]
  | .noResponse => [.error noResponseMessage]
  | .unauthorized => []
  | .serverError status body => [.error (serverErrorMessage status body)]
  | .stopped =>
      if deltas = [] then [.error stoppedMessage]
      else [.assistant (r.html (received r deltas)) true]
  | .failed message =>
      (if deltas = [] then [] else [.assistant (r.html (received r deltas)) false]) ++
        [.error (requestFailedMessage message)]

/-- A call as it stands on the page for good. -/
def record (c : SendCall) : List (Element η) :=
  match c.phase with
  | .ended outcome => .user c.text :: outcomeElements r c.deltas outcome
  | _ => []

def elements (σ : ChatPage η) : List (Element η) := σ.nodes.map (·.2)

end Records

section Layout
variable {r : Rendering η} {before : List SendCall} {text : JsText} {low id : ℕ}
  {tail : List (ℕ × Element η)} {σ τ : ChatPage η}

/-- The nodes of the last message begin at some id, and those before are of earlier ones. -/
structure Laid (r : Rendering η) (before : List SendCall) (text : JsText) (low : ℕ)
    (tail : List (ℕ × Element η)) (σ : ChatPage η) : Prop where
  split : ∃ front, σ.nodes = front ++ tail ∧ (∀ n ∈ front, n.1 < low) ∧
    front.map (·.2) = before.flatMap (record r) ++ [.user text]
  low_lt : low < σ.nextNode
  fresh : ∀ n ∈ σ.nodes, n.1 < σ.nextNode

theorem Laid.of_eq (h : Laid r before text low tail σ) (hnodes : τ.nodes = σ.nodes)
    (hnext : τ.nextNode = σ.nextNode) : Laid r before text low tail τ := by
  constructor
  · rw [hnodes]
    exact h.split
  · rw [hnext]
    exact h.low_lt
  · rw [hnodes, hnext]
    exact h.fresh

theorem Laid.append (h : Laid r before text low tail σ) (e : Element η) :
    Laid r before text low (tail ++ [(σ.nextNode, e)]) (σ.append e) := by
  obtain ⟨front, hnodes, hfront, hmap⟩ := h.split
  refine ⟨⟨front, ?_, hfront, hmap⟩, Nat.lt_succ_of_lt h.low_lt, ?_⟩
  · simp only [ChatPage.append, hnodes, List.append_assoc]
  · intro n hn
    obtain hn | hn := List.mem_append.mp hn
    · exact Nat.lt_succ_of_lt (h.fresh n hn)
    · rw [List.mem_singleton.mp hn]
      exact Nat.lt_succ_self σ.nextNode

/-- No earlier node is removed. -/
theorem Laid.remove (h : Laid r before text low tail σ) (hid : low ≤ id) :
    Laid r before text low (tail.filter fun n => n.1 ≠ id) (σ.remove id) := by
  obtain ⟨front, hnodes, hfront, hmap⟩ := h.split
  refine ⟨⟨front, ?_, hfront, hmap⟩, h.low_lt, fun n hn => h.fresh n (List.mem_filter.mp hn).1⟩
  have hkeep : front.filter (fun n => n.1 ≠ id) = front :=
    List.filter_eq_self.mpr fun n hn => decide_eq_true ((hfront n hn).trans_le hid).ne
  simp only [ChatPage.remove, hnodes, List.filter_append, hkeep]

/-- No earlier node is changed. -/
theorem Laid.updateNode (h : Laid r before text low tail σ) (hid : low ≤ id)
    (f : Element η → Element η) :
    Laid r before text low (tail.map fun n => if n.1 = id then (n.1, f n.2) else n)
      (σ.updateNode id f) := by
  obtain ⟨front, hnodes, hfront, hmap⟩ := h.split
  have hkeep : front.map (fun n => if n.1 = id then (n.1, f n.2) else n) = front :=
    (List.map_congr_left fun n hn => if_neg ((hfront n hn).trans_le hid).ne).trans
      (List.map_id' front)
  refine ⟨⟨front, ?_, hfront, hmap⟩, h.low_lt, ?_⟩
  · simp only [ChatPage.updateNode, hnodes, List.map_append, hkeep]
  · intro n hn
    obtain ⟨m, hm, rfl⟩ := List.mem_map.mp hn
    split <;> exact h.fresh m hm

end Layout

section Invariant
variable {r : Rendering η} {before : List SendCall} {c d : SendCall} {shown : List JsValue}
  {outcome : CallEnd} {tail : List (ℕ × Element η)} {σ τ : ChatPage η}

/-- No message is being answered. -/
structure AtRest (r : Rendering η) (σ : ChatPage η) : Prop where
  ended : ∀ c ∈ σ.calls, c.HasEnded
  shows : σ.elements = σ.calls.flatMap (record r)
  controls : σ.controls = .unlocked
  noAbort : σ.abortCtl = none
  noFrame : σ.callbacks = []
  fresh : ∀ n ∈ σ.nodes, n.1 < σ.nextNode
  handle : 0 < σ.nextHandle

/-- What the call in flight draws into a node, and the frame that it waits for. -/
inductive Drawing (i : ℕ) (c : SendCall) : List JsValue → List (ℕ × ℕ) → ℕ → Prop
  | waiting (running : ¬ c.HasEnded) (div : c.div = none) (frame : c.frame = 0)
      (deltas : c.deltas = []) : Drawing i c [] [] c.thinking
  | upToDate {id : ℕ} (phase : c.phase = .streaming) (div : c.div = some id)
      (after : c.thinking < id) (frame : c.frame = 0) (deltas : c.deltas ≠ []) :
      Drawing i c c.deltas [] id
  | behind {id : ℕ} {shown : List JsValue} (phase : c.phase = .streaming) (div : c.div = some id)
      (after : c.thinking < id) (frame : c.frame ≠ 0) (prefixed : shown <+: c.deltas)
      (nonempty : shown ≠ []) : Drawing i c shown [(c.frame, i)] id

/-- The message of a call is being answered, and it shows these pieces. -/
structure InFlight (r : Rendering η) (before : List SendCall) (c : SendCall)
    (shown : List JsValue) (σ : ChatPage η) : Prop where
  calls : σ.calls = before ++ [c]
  ended : ∀ d ∈ before, d.HasEnded
  accumulated : c.accumulated = received r c.deltas
  draws : ∃ id, Drawing before.length c shown σ.callbacks id ∧
    Laid r before c.text c.thinking [(id, showing r shown)] σ
  controls : σ.controls = .locked
  abort : σ.abortCtl = some before.length
  handle : 0 < σ.nextHandle

/-- All that the call was given is drawn, and no frame is waited for. -/
structure Flushed (r : Rendering η) (before : List SendCall) (c : SendCall) (id : ℕ)
    (σ : ChatPage η) : Prop where
  calls : ∃ d, σ.calls = before ++ [d]
  node : c.div = none ∧ c.deltas = [] ∧ id = c.thinking ∨
    c.div = some id ∧ c.deltas ≠ [] ∧ c.thinking < id
  laid : Laid r before c.text c.thinking [(id, showing r c.deltas)] σ
  noFrame : σ.callbacks = []
  handle : 0 < σ.nextHandle

@[simp] theorem received_append (deltas : List JsValue) (d : JsValue) :
    received r (deltas ++ [d]) = received r deltas ++ r.toText d := by
  simp [received]

theorem Drawing.shown_first {i id : ℕ} {callbacks : List (ℕ × ℕ)}
    (h : Drawing i c shown callbacks id) : shown <+: c.deltas := by
  cases h with
  | waiting => exact List.nil_prefix
  | upToDate => exact List.prefix_rfl
  | behind _ _ _ _ hfirst _ => exact hfirst

theorem Drawing.not_hasEnded {i id : ℕ} {callbacks : List (ℕ × ℕ)}
    (h : Drawing i c shown callbacks id) : ¬ c.HasEnded := by
  have hstreaming : c.phase = .streaming → ¬ c.HasEnded := by
    rintro hphase ⟨outcome, houtcome⟩
    rw [hphase] at houtcome
    cases houtcome
  cases h with
  | waiting hrunning _ _ _ => exact hrunning
  | upToDate hphase _ _ _ _ => exact hstreaming hphase
  | behind hphase _ _ _ _ _ => exact hstreaming hphase

/-- With its message answered, the page is at rest, and what is left of the call is on record. -/
theorem Laid.finish (h : Laid r before c.text c.thinking tail σ)
    (htail : (tail.filter fun n => n.1 ≠ c.thinking).map (·.2) =
      outcomeElements r c.deltas outcome)
    (hcalls : ∃ d, σ.calls = before ++ [d]) (hended : ∀ d ∈ before, d.HasEnded)
    (hframe : σ.callbacks = []) (hhandle : 0 < σ.nextHandle) :
    AtRest r (σ.finish before.length c outcome) := by
  obtain ⟨d, hcalls⟩ := hcalls
  have hset : (σ.finish before.length c outcome).calls =
      before ++ [{ c with phase := .ended outcome, frame := 0 }] := by
    simp [ChatPage.finish, ChatPage.remove, hcalls]
  have hremoved := h.remove (le_refl c.thinking)
  obtain ⟨front, hnodes, -, hmap⟩ := hremoved.split
  constructor
  · rw [hset]
    intro x hx
    obtain hx | hx := List.mem_append.mp hx
    · exact hended x hx
    · rw [List.mem_singleton.mp hx]
      exact ⟨outcome, rfl⟩
  · rw [hset, List.flatMap_append, List.flatMap_singleton]
    calc (σ.finish before.length c outcome).elements
      _ = (σ.remove c.thinking).nodes.map (·.2) := rfl
      _ = before.flatMap (record r) ++ ([.user c.text] ++ outcomeElements r c.deltas outcome) := by
        rw [hnodes, List.map_append, hmap, htail, List.append_assoc]
  · rfl
  · rfl
  · exact hframe
  · exact hremoved.fresh
  · exact hhandle

/-- The node of the call is drawn anew, from all that the call was given. -/
theorem Laid.render {i id : ℕ} {e : Element η} (h : Laid r before c.text c.thinking [(id, e)] σ)
    (hdiv : c.div = some id) (hafter : c.thinking < id) (hdeltas : c.deltas ≠ [])
    (haccumulated : c.accumulated = received r c.deltas) :
    Laid r before c.text c.thinking [(id, showing r c.deltas)] (render r i c σ) := by
  have hset : Laid r before c.text c.thinking [(id, e)] (σ.setCall i { c with frame := 0 }) :=
    h.of_eq rfl rfl
  have hupdated := hset.updateNode hafter.le fun _ => .assistant (r.html c.accumulated) false
  simpa [ChatPage.render, hdiv, showing, hdeltas, haccumulated] using hupdated

theorem render_calls {i : ℕ} : (render r i c σ).calls = σ.calls.set i { c with frame := 0 } := by
  unfold render
  split <;> rfl

theorem render_callbacks {i : ℕ} : (render r i c σ).callbacks = σ.callbacks := by
  unfold render
  split <;> rfl

theorem render_nextHandle {i : ℕ} : (render r i c σ).nextHandle = σ.nextHandle := by
  unfold render
  split <;> rfl

theorem Flushed.of_render {id : ℕ} {e : Element η} (hcalls : σ.calls = before ++ [c])
    (hlaid : Laid r before c.text c.thinking [(id, e)] σ) (hdiv : c.div = some id)
    (hafter : c.thinking < id) (hdeltas : c.deltas ≠ [])
    (haccumulated : c.accumulated = received r c.deltas) (hframe : σ.callbacks = [])
    (hhandle : 0 < σ.nextHandle) :
    Flushed r before c id (render r before.length c σ) where
  calls := ⟨{ c with frame := 0 }, by simp [render_calls, hcalls]⟩
  node := .inr ⟨hdiv, hdeltas, hafter⟩
  laid := hlaid.render hdiv hafter hdeltas haccumulated
  noFrame := by rw [render_callbacks, hframe]
  handle := by rwa [render_nextHandle]

/-- The `finally` draws what a frame was still to draw, and this frame never comes. -/
theorem InFlight.flush (h : InFlight r before c shown σ) :
    ∃ id, Flushed r before c id (ChatPage.flush r before.length c σ) := by
  obtain ⟨id, hdraws, hlaid⟩ := h.draws
  refine ⟨id, ?_⟩
  generalize hcallbacks : σ.callbacks = callbacks at hdraws
  cases hdraws with
  | waiting hrunning hdiv hframe hdeltas =>
      simp only [ChatPage.flush, hframe, hdiv, if_true]
      refine ⟨⟨c, h.calls⟩, .inl ⟨hdiv, hdeltas, rfl⟩, ?_, hcallbacks, h.handle⟩
      rw [hdeltas]
      exact hlaid
  | upToDate hphase hdiv hafter hframe hdeltas =>
      simp only [ChatPage.flush, hframe, hdiv, if_true, reduceCtorEq, if_false]
      exact .of_render h.calls hlaid hdiv hafter hdeltas h.accumulated hcallbacks h.handle
  | behind hphase hdiv hafter hframe hfirst hnonempty =>
      have hdeltas : c.deltas ≠ [] := hfirst.ne_nil hnonempty
      simp only [ChatPage.flush, hframe, hdiv, reduceCtorEq, if_false]
      refine .of_render h.calls (hlaid.of_eq rfl rfl) hdiv hafter hdeltas h.accumulated ?_ h.handle
      simp [hcallbacks]

/-- A call that does not stream has nothing to draw. -/
theorem InFlight.flushed (h : InFlight r before c shown σ) (hphase : c.phase ≠ .streaming) :
    c.div = none ∧ Flushed r before c c.thinking σ := by
  obtain ⟨id, hdraws, hlaid⟩ := h.draws
  generalize hcallbacks : σ.callbacks = callbacks at hdraws
  cases hdraws with
  | waiting hrunning hdiv hframe hdeltas =>
      refine ⟨hdiv, ⟨c, h.calls⟩, .inl ⟨hdiv, hdeltas, rfl⟩, ?_, hcallbacks, h.handle⟩
      rw [hdeltas]
      exact hlaid
  | upToDate hstreaming _ _ _ _ => exact absurd hstreaming hphase
  | behind hstreaming _ _ _ _ _ => exact absurd hstreaming hphase

theorem Flushed.deltas_eq_nil {id : ℕ} (h : Flushed r before c id σ) (hdiv : c.div = none) :
    c.deltas = [] := by
  obtain ⟨-, hdeltas, -⟩ | ⟨hsome, -, -⟩ := h.node
  · exact hdeltas
  · rw [hdiv] at hsome
    cases hsome

section Endings
variable {id : ℕ} (h : Flushed r before c id σ) (hended : ∀ d ∈ before, d.HasEnded)
include h hended

/-- The answer stays, or the wait does not, and a message comes behind it. -/
theorem Flushed.finish_error {m : JsText}
    (houtcome : outcomeElements r c.deltas outcome =
      (if c.deltas = [] then [] else [.assistant (r.html (received r c.deltas)) false]) ++
        [.error m]) :
    AtRest r ((σ.append (.error m)).finish before.length c outcome) := by
  have happended := h.laid.append (.error m)
  have hnew : σ.nextNode ≠ c.thinking := h.laid.low_lt.ne'
  refine happended.finish ?_ h.calls hended h.noFrame h.handle
  obtain ⟨-, hdeltas, rfl⟩ | ⟨-, hdeltas, hafter⟩ := h.node
  · rw [houtcome]
    simp [hdeltas, hnew]
  · rw [houtcome]
    simp [hdeltas, hnew, hafter.ne', showing]

theorem Flushed.finish_answered (hdiv : c.div ≠ none) :
    AtRest r (σ.finish before.length c .answered) := by
  refine h.laid.finish ?_ h.calls hended h.noFrame h.handle
  obtain ⟨hnone, -, -⟩ | ⟨-, hdeltas, hafter⟩ := h.node
  · exact absurd hnone hdiv
  · simp [outcomeElements, hafter.ne', showing, hdeltas]

theorem Flushed.finish_unauthorized (hdiv : c.div = none) :
    AtRest r (σ.finish before.length c .unauthorized) := by
  refine h.laid.finish ?_ h.calls hended h.noFrame h.handle
  obtain ⟨-, -, rfl⟩ | ⟨hsome, -, -⟩ := h.node
  · simp [outcomeElements]
  · rw [hdiv] at hsome
    cases hsome

/-- A stop leaves its mark behind what was drawn, or stands alone. -/
theorem Flushed.finish_stopped :
    AtRest r ((markStopped c σ).finish before.length c .stopped) := by
  obtain ⟨hdiv, hdeltas, rfl⟩ | ⟨hdiv, hdeltas, hafter⟩ := h.node
  · simp only [markStopped, hdiv]
    apply h.finish_error hended
    simp [outcomeElements, hdeltas]
  · simp only [markStopped, hdiv]
    have hmarked := h.laid.updateNode hafter.le Element.mark
    refine hmarked.finish ?_ h.calls hended h.noFrame h.handle
    simp [outcomeElements, hdeltas, hafter.ne', showing, Element.mark]

end Endings

/-- The next state of the call in flight, with its node and its frame. -/
theorem InFlight.setCall {e : SendCall} {shown' : List JsValue} (h : InFlight r before c shown σ)
    (hcalls : τ.calls = before ++ [e]) (haccumulated : e.accumulated = received r e.deltas)
    (hdraws : ∃ id, Drawing before.length e shown' τ.callbacks id ∧
      Laid r before e.text e.thinking [(id, showing r shown')] τ)
    (hcontrols : τ.controls = σ.controls) (habort : τ.abortCtl = σ.abortCtl)
    (hhandle : σ.nextHandle ≤ τ.nextHandle) : InFlight r before e shown' τ where
  calls := hcalls
  ended := h.ended
  accumulated := haccumulated
  draws := hdraws
  controls := hcontrols.trans h.controls
  abort := habort.trans h.abort
  handle := h.handle.trans_le hhandle

theorem InFlight.calls_set (h : InFlight r before c shown σ) (e : SendCall) :
    σ.calls.set before.length e = before ++ [e] := by
  simp [h.calls]

theorem InFlight.setPhase {phase : SendPhase} (h : InFlight r before c shown σ)
    (hphase : c.phase = .fetching) (hrunning : ∀ outcome, phase ≠ .ended outcome) :
    InFlight r before { c with phase } [] (σ.setCall before.length { c with phase }) := by
  obtain ⟨id, hdraws, hlaid⟩ := h.draws
  refine h.setCall (h.calls_set _) h.accumulated ⟨id, ?_⟩ rfl rfl le_rfl
  simp only [ChatPage.setCall]
  generalize σ.callbacks = callbacks at hdraws
  cases hdraws with
  | waiting hnot hdiv hframe hdeltas =>
      refine ⟨.waiting ?_ hdiv hframe hdeltas, hlaid.of_eq rfl rfl⟩
      rintro ⟨outcome, houtcome⟩
      exact hrunning outcome houtcome
  | upToDate hstreaming _ _ _ _ =>
      rw [hphase] at hstreaming
      cases hstreaming
  | behind hstreaming _ _ _ _ _ =>
      rw [hphase] at hstreaming
      cases hstreaming

/-- A stop only reaches the call in flight. -/
theorem InFlight.abort_step (h : InFlight r before c shown σ) :
    InFlight r before { c with aborted := true } shown
      { σ with calls := σ.calls.modify before.length fun c => { c with aborted := true } } := by
  obtain ⟨id, hdraws, hlaid⟩ := h.draws
  refine h.setCall ?_ h.accumulated ⟨id, ?_, hlaid.of_eq rfl rfl⟩ rfl rfl le_rfl
  · simp [h.calls, List.modify_eq_set_getElem?]
  generalize σ.callbacks = callbacks at hdraws
  cases hdraws with
  | waiting hnot hdiv hframe hdeltas => exact .waiting hnot hdiv hframe hdeltas
  | upToDate hphase hdiv hafter hframe hdeltas => exact .upToDate hphase hdiv hafter hframe hdeltas
  | behind hphase hdiv hafter hframe hfirst hnonempty =>
      exact .behind hphase hdiv hafter hframe hfirst hnonempty

/-- The first piece takes the place of the wait, the next one asks for a frame, and what comes
until the frame waits with it. -/
theorem InFlight.addDelta {d : JsValue} (h : InFlight r before c shown σ)
    (hphase : c.phase = .streaming) : ∃ e shown',
      InFlight r before e shown' (ChatPage.addDelta r before.length c d σ) := by
  have haccumulated : c.accumulated ++ r.toText d = received r (c.deltas ++ [d]) := by
    rw [received_append, h.accumulated]
  obtain ⟨id, hdraws, hlaid⟩ := h.draws
  generalize hcallbacks : σ.callbacks = callbacks at hdraws
  cases hdraws with
  | waiting hnot hdiv hframe hdeltas =>
      simp only [ChatPage.addDelta, hdiv, if_true]
      refine ⟨_, c.deltas ++ [d],
        h.setCall (h.calls_set _) haccumulated ⟨σ.nextNode, ?_, ?_⟩ rfl rfl le_rfl⟩
      · simp only [ChatPage.setCall, ChatPage.append, ChatPage.remove, hcallbacks]
        exact .upToDate hphase rfl hlaid.low_lt hframe (by simp)
      · have hplaced : Laid r before c.text c.thinking
            [(σ.nextNode, .assistant (r.html (c.accumulated ++ r.toText d)) false)]
            ((σ.remove c.thinking).append
              (.assistant (r.html (c.accumulated ++ r.toText d)) false)) := by
          simpa [ChatPage.remove] using (hlaid.remove le_rfl).append
            (.assistant (r.html (c.accumulated ++ r.toText d)) false)
        have hshows : showing r (c.deltas ++ [d]) =
            .assistant (r.html (c.accumulated ++ r.toText d)) false := by
          simp [showing, haccumulated]
        rw [hshows]
        exact hplaced.of_eq rfl rfl
  | upToDate _ hdiv hafter hframe hdeltas =>
      simp only [ChatPage.addDelta, hdiv, reduceCtorEq, if_false, hframe, if_true]
      refine ⟨_, c.deltas, h.setCall (h.calls_set _) haccumulated
        ⟨id, ?_, hlaid.of_eq rfl rfl⟩ rfl rfl (Nat.le_succ _)⟩
      simp only [hcallbacks, List.nil_append]
      exact .behind hphase rfl hafter h.handle.ne' (List.prefix_append ..) hdeltas
  | behind _ hdiv hafter hframe hfirst hnonempty =>
      simp only [ChatPage.addDelta, hdiv, reduceCtorEq, if_false, hframe]
      refine ⟨_, shown, h.setCall (h.calls_set _) haccumulated
        ⟨id, ?_, hlaid.of_eq rfl rfl⟩ rfl rfl le_rfl⟩
      simp only [ChatPage.setCall, hcallbacks]
      exact .behind hphase rfl hafter hframe (hfirst.trans (List.prefix_append ..)) hnonempty

/-- A frame that comes is that of the call in flight, which is up to date then. -/
theorem InFlight.frame_step (h : InFlight r before c shown σ) {f : ℕ × ℕ}
    (hf : σ.callbacks.find? (fun g => g.1 = f.1) = some f) (hcall : σ.calls[f.2]? = some d) :
    ∃ e, InFlight r before e c.deltas
      (render r f.2 d { σ with callbacks := σ.callbacks.filter fun g => g.1 ≠ f.1 }) := by
  have hmem : f ∈ σ.callbacks := List.mem_of_find?_eq_some hf
  obtain ⟨id, hdraws, hlaid⟩ := h.draws
  generalize hcallbacks : σ.callbacks = callbacks at hdraws
  rw [hcallbacks] at hmem
  cases hdraws with
  | waiting _ _ _ _ => exact absurd hmem List.not_mem_nil
  | upToDate _ _ _ _ _ => exact absurd hmem List.not_mem_nil
  | behind hphase hdiv hafter hframe hfirst hnonempty =>
      have hdeltas : c.deltas ≠ [] := hfirst.ne_nil hnonempty
      cases List.mem_singleton.mp hmem
      have hd : c = d := by simpa [h.calls] using hcall
      subst hd
      have hlaid' : Laid r before c.text c.thinking [(id, showing r shown)]
          { σ with callbacks := [] } := hlaid.of_eq rfl rfl
      have hcancelled : [(c.frame, before.length)].filter
          (fun g => g.1 ≠ (c.frame, before.length).1) = [] := by
        simp
      rw [hcancelled]
      refine ⟨{ c with frame := 0 }, h.setCall ?_ h.accumulated ⟨id, ?_, ?_⟩ ?_ ?_ ?_⟩
      · rw [render_calls]
        exact h.calls_set _
      · rw [render_callbacks]
        exact .upToDate hphase hdiv hafter rfl hdeltas
      · exact hlaid'.render hdiv hafter hdeltas h.accumulated
      · simp only [ChatPage.render, hdiv]
        rfl
      · simp only [ChatPage.render, hdiv]
        rfl
      · rw [render_nextHandle]

end Invariant

section Steps
variable {r : Rendering η} {before : List SendCall} {c d : SendCall} {shown : List JsValue}
  {i : ℕ} {e : PageEvent} {σ τ : ChatPage η}

/-- The page is at rest, or one message is being answered. -/
def Settled (r : Rendering η) (σ : ChatPage η) : Prop :=
  AtRest r σ ∨ ∃ before c shown, InFlight r before c shown σ

theorem callStep_of_hasEnded (h : c.HasEnded) : callStep r i c σ e = none := by
  obtain ⟨outcome, houtcome⟩ := h
  cases e <;> simp [callStep, houtcome]

theorem AtRest.send (h : AtRest r σ) (text : JsText) :
    ∃ c, InFlight r σ.calls c [] (σ.send text) := by
  have hrecord : Laid r σ.calls text (σ.nextNode + 1) [(σ.nextNode + 1, .thinking)]
      (σ.send text) := by
    refine ⟨⟨σ.nodes ++ [(σ.nextNode, .user text)], rfl, ?_, ?_⟩, Nat.lt_succ_self _, ?_⟩
    · intro n hn
      obtain hn | hn := List.mem_append.mp hn
      · exact Nat.lt_succ_of_lt (h.fresh n hn)
      · rw [List.mem_singleton.mp hn]
        exact Nat.lt_succ_self _
    · rw [List.map_append, ← h.shows]
      rfl
    · intro n hn
      obtain hn | hn := List.mem_append.mp hn
      · obtain hn | hn := List.mem_append.mp hn
        · exact Nat.lt_add_right 2 (h.fresh n hn)
        · rw [List.mem_singleton.mp hn]
          exact Nat.lt_add_of_pos_right Nat.two_pos
      · rw [List.mem_singleton.mp hn]
        exact Nat.lt_succ_self _
  refine ⟨_, rfl, h.ended, rfl, ⟨σ.nextNode + 1, ?_, hrecord⟩, rfl, rfl, h.handle⟩
  have hnone : (σ.send text).callbacks = [] := h.noFrame
  rw [hnone]
  refine .waiting ?_ rfl rfl rfl
  rintro ⟨outcome, houtcome⟩
  cases houtcome

/-- What an event of the call in flight leads to. -/
theorem InFlight.callStep (h : InFlight r before c shown σ)
    (hstep : callStep r before.length c σ e = some τ) : Settled r τ := by
  cases e with
  | send | stop | frame => cases hstep
  | responds _ status =>
      simp only [ChatPage.callStep] at hstep
      split_ifs at hstep with hphase h401 hok
      · cases hstep
        have hfetching : c.phase ≠ .streaming := by rw [not_not.mp hphase]; nofun
        obtain ⟨hdiv, hflushed⟩ := h.flushed hfetching
        exact .inl (hflushed.finish_unauthorized h.ended hdiv)
      · cases hstep
        exact .inr ⟨before, _, _, h.setPhase (not_not.mp hphase) nofun⟩
      · cases hstep
        exact .inr ⟨before, _, _, h.setPhase (not_not.mp hphase) nofun⟩
  | errorBody _ body =>
      simp only [ChatPage.callStep] at hstep
      split at hstep
      · next status hphase =>
          cases hstep
          have hreading : c.phase ≠ .streaming := by rw [hphase]; nofun
          obtain ⟨hdiv, hflushed⟩ := h.flushed hreading
          refine .inl (hflushed.finish_error h.ended ?_)
          rw [hflushed.deltas_eq_nil hdiv]
          rfl
      · cases hstep
  | delta _ d =>
      simp only [ChatPage.callStep] at hstep
      split_ifs at hstep with hphase
      cases hstep
      obtain ⟨e, shown', hnext⟩ := h.addDelta (d := d) hphase
      exact .inr ⟨before, e, shown', hnext⟩
  | streamEnds _ =>
      simp only [ChatPage.callStep] at hstep
      obtain ⟨id, hflushed⟩ := h.flush
      split_ifs at hstep with hphase hdiv
      · cases hstep
        refine .inl (hflushed.finish_error h.ended ?_)
        rw [hflushed.deltas_eq_nil hdiv]
        rfl
      · cases hstep
        exact .inl (hflushed.finish_answered h.ended hdiv)
  | aborts _ =>
      simp only [ChatPage.callStep] at hstep
      split_ifs at hstep with haborted hstreaming hfetching
      · cases hstep
        obtain ⟨id, hflushed⟩ := h.flush
        exact .inl (hflushed.finish_stopped h.ended)
      · cases hstep
        exact .inl ((h.flushed hstreaming).2.finish_stopped h.ended)
  | fails _ message =>
      simp only [ChatPage.callStep] at hstep
      split_ifs at hstep with hstreaming hfetching
      · cases hstep
        obtain ⟨id, hflushed⟩ := h.flush
        exact .inl (hflushed.finish_error h.ended rfl)
      · cases hstep
        exact .inl ((h.flushed hstreaming).2.finish_error h.ended rfl)

/-- What one event keeps. -/
theorem Settled.step (h : Settled r σ) (hstep : step r σ e = some τ) : Settled r τ := by
  have hcall : ∀ i, (do let c ← σ.calls[i]?; ChatPage.callStep r i c σ e) = some τ →
      Settled r τ := by
    intro i hi
    obtain ⟨c, hc, hi⟩ := Option.bind_eq_some_iff.mp hi
    obtain h | ⟨before, c', shown, h⟩ := h
    · rw [callStep_of_hasEnded (h.ended c (List.mem_of_getElem? hc))] at hi
      cases hi
    · obtain hlt | hge := Nat.lt_or_ge i before.length
      · rw [h.calls, List.getElem?_append_left hlt] at hc
        rw [callStep_of_hasEnded (h.ended c (List.mem_of_getElem? hc))] at hi
        cases hi
      · rw [h.calls, List.getElem?_append_right hge, List.getElem?_singleton] at hc
        split_ifs at hc with hindex
        cases hc
        have hi' : i = before.length := by omega
        subst hi'
        exact h.callStep hi
  cases e with
  | send input =>
      simp only [ChatPage.step] at hstep
      split_ifs at hstep with hskip
      · cases hstep
        exact h
      · cases hstep
        obtain ⟨-, henabled⟩ := not_or.mp hskip
        obtain h | ⟨before, c, shown, h⟩ := h
        · obtain ⟨c, hc⟩ := h.send (trim input)
          exact .inr ⟨_, c, [], hc⟩
        · rw [h.controls] at henabled
          exact absurd rfl henabled
  | stop =>
      simp only [ChatPage.step, Option.some.injEq] at hstep
      obtain h | ⟨before, c, shown, h⟩ := h
      · simp only [h.noAbort] at hstep
        exact .inl (hstep ▸ h)
      · simp only [h.abort] at hstep
        subst hstep
        have hstopped := h.abort_step
        rw [h.abort] at hstopped
        exact .inr ⟨before, _, shown, hstopped⟩
  | frame handle =>
      obtain ⟨f, hf, hstep⟩ := Option.bind_eq_some_iff.mp hstep
      obtain ⟨d, hd, hstep⟩ := Option.bind_eq_some_iff.mp hstep
      cases hstep
      obtain h | ⟨before, c, shown, h⟩ := h
      · rw [h.noFrame] at hf
        cases hf
      · have hhandle : f.1 = handle := by simpa using List.find?_some hf
        subst hhandle
        obtain ⟨e, he⟩ := h.frame_step hf hd
        exact .inr ⟨before, e, _, he⟩
  | responds i | errorBody i | delta i | streamEnds i | aborts i | fails i => exact hcall i hstep

theorem settled_start : Settled r start :=
  .inl ⟨nofun, rfl, rfl, rfl, rfl, nofun, Nat.one_pos⟩

theorem run_settled {events : List PageEvent} (h : run (ChatPage.step r) start events = some σ) :
    Settled r σ :=
  run_invariant (fun _ _ _ hs hstep => hs.step hstep) settled_start h

/-- A call that has ended is on the page as it is on record, whatever came after it. -/
theorem Settled.record_part (h : Settled r σ) (hc : c ∈ σ.calls) (hended : c.HasEnded) :
    record r c <:+: σ.elements := by
  have hpart : ∀ calls : List SendCall, c ∈ calls → record r c <:+: calls.flatMap (record r) := by
    intro calls hmem
    obtain ⟨front, back, rfl⟩ := List.append_of_mem hmem
    exact ⟨front.flatMap (record r), back.flatMap (record r), by simp⟩
  obtain h | ⟨before, c', shown, h⟩ := h
  · rw [h.shows]
    exact hpart _ hc
  · obtain ⟨id, hdraws, hlaid⟩ := h.draws
    rw [h.calls] at hc
    obtain hc | hc := List.mem_append.mp hc
    · obtain ⟨front, hnodes, -, hmap⟩ := hlaid.split
      refine (hpart before hc).trans (List.IsPrefix.isInfix ?_)
      rw [elements, hnodes, List.map_append, hmap, List.append_assoc]
      exact List.prefix_append ..
    · rw [List.mem_singleton.mp hc] at hended
      exact absurd hended hdraws.not_hasEnded

/-- What stands on the page is the record of its messages. Between messages that is their texts
and outcomes, in order, and the page can be used. In a message it is this for those before, and
for the last its text and a first part of its answer, which is all of it unless a frame is
waited for, and no other message can be sent. -/
theorem page_is_record {events : List PageEvent}
    (h : run (ChatPage.step r) start events = some σ) :
    ((∀ c ∈ σ.calls, c.HasEnded) ∧ σ.elements = σ.calls.flatMap (record r) ∧
      σ.controls = .unlocked ∧ σ.abortCtl = none ∧ σ.callbacks = []) ∨
    ∃ before c shown, σ.calls = before ++ [c] ∧ (∀ d ∈ before, d.HasEnded) ∧ ¬ c.HasEnded ∧
      σ.elements = before.flatMap (record r) ++ [.user c.text, showing r shown] ∧
      shown <+: c.deltas ∧ (shown = [] → c.deltas = []) ∧
      (shown = c.deltas ∧ σ.callbacks = [] ∨ σ.callbacks = [(c.frame, before.length)]) ∧
      σ.controls = .locked ∧ σ.abortCtl = some before.length := by
  obtain h | ⟨before, c, shown, h⟩ := run_settled h
  · exact .inl ⟨h.ended, h.shows, h.controls, h.noAbort, h.noFrame⟩
  · obtain ⟨id, hdraws, hlaid⟩ := h.draws
    obtain ⟨front, hnodes, -, hmap⟩ := hlaid.split
    refine .inr ⟨before, c, shown, h.calls, h.ended, hdraws.not_hasEnded, ?_, hdraws.shown_first,
      ?_, ?_, h.controls, h.abort⟩
    · rw [elements, hnodes, List.map_append, hmap, List.append_assoc]
      rfl
    · intro hnil
      generalize σ.callbacks = callbacks at hdraws
      cases hdraws with
      | waiting _ _ _ hdeltas => exact hdeltas
      | upToDate _ _ _ _ hdeltas => exact hnil
      | behind _ _ _ _ _ hnonempty => exact absurd hnil hnonempty
    · generalize σ.callbacks = callbacks at hdraws
      cases hdraws with
      | waiting _ _ _ hdeltas => exact .inl ⟨hdeltas.symm, rfl⟩
      | upToDate _ _ _ _ _ => exact .inl ⟨rfl, rfl⟩
      | behind _ _ _ _ _ _ => exact .inr rfl

/-- A page that shows the texts themselves. -/
def plainRendering : Rendering JsText where
  html := id
  toText
    | .str s => s
    | _ => []

/-- Two messages: the first is answered in three pieces and one frame, and the second stopped. -/
def twoMessages : List PageEvent :=
  [.send (jsText " Hi "), .responds 0 200, .delta 0 (.str (jsText "Hel")),
    .delta 0 (.str (jsText "lo ")), .frame 1, .delta 0 (.str (jsText "you")), .send (jsText "Now"),
    .streamEnds 0, .send (jsText "More"), .stop, .aborts 1]

theorem page_is_record_twoMessages :
    ∃ σ, run (ChatPage.step plainRendering) start twoMessages = some σ ∧
      σ.elements = [.user (jsText "Hi"), .assistant (jsText "Hello you") false,
        .user (jsText "More"), .error stoppedMessage] ∧
      σ.controls = .unlocked := by
  have hrun : (run (ChatPage.step plainRendering) start twoMessages).any (fun σ =>
      σ.elements = [.user (jsText "Hi"), .assistant (jsText "Hello you") false,
        .user (jsText "More"), .error stoppedMessage] ∧ σ.abortCtl = none) = true := by
    decide +kernel
  obtain ⟨σ, hσ, hshows⟩ := (Option.any_eq_true ..).mp hrun
  obtain ⟨helements, habort⟩ := of_decide_eq_true hshows
  refine ⟨σ, hσ, helements, ?_⟩
  obtain ⟨-, -, hcontrols, -⟩ | ⟨_, _, _, -, -, -, -, -, -, -, -, hlocked⟩ := page_is_record hσ
  · exact hcontrols
  · rw [habort] at hlocked
    cases hlocked

end Steps

section Answer
variable {r : Rendering η} {c : SendCall} {π : ChatPage η} {pageEvents : List PageEvent}
variable {σ : Stream} {events : List StreamEvent} {requestId model : Text} {created : ℕ}
variable {reads : List Bytes}

theorem received_str (hstr : ∀ s, r.toText (.str s) = s) (texts : List Text) :
    received r ((texts.filter (· ≠ [])).map fun t => .str (utf16 t)) = utf16 texts.flatten := by
  rw [received, List.map_map, utf16_flatten]
  induction texts with
  | nil => rfl
  | cons t texts ih =>
      by_cases ht : t = []
      · subst ht
        simpa using ih
      · simpa [ht, hstr] using ih

/-- An answer that was read to its end, with no put that timed out, stands on the page under its
question as what the text of the reply looks like, whatever was asked before and after it. -/
theorem answer_on_page {recursionLimit : ℕ} {raises : Text → Bool}
    {connectionEnd : ConnectionEnd} {pieces : List (StreamLine × Text)} {last : StreamLine}
    {t : Text} {lines : List StreamLine} (hstr : ∀ s, r.toText (.str s) = s)
    (hpieces : ∀ p ∈ pieces, readPiece recursionLimit p.1 = some (p.2, false))
    (hlast : readPiece recursionLimit last = some (t, true))
    (hfollows : Follows events (streamGenerate recursionLimit raises connectionEnd
      (pieces.map Prod.fst ++ last :: lines)))
    (hguard : Guarded Stream.step Stream.PutsInTime Stream.start events)
    (h : run Stream.step Stream.start events = some σ) (hfinished : σ.Finished)
    (hreads : reads.flatten = body requestId created model σ.received)
    (hpage : run (ChatPage.step r) start pageEvents = some π) (hc : c ∈ π.calls)
    (hanswered : c.phase = .ended .answered) (hdeltas : c.deltas = iterSSEDeltas .new [] reads) :
    [.user c.text, .assistant (r.html (utf16 ((pieces.map Prod.snd).flatten ++ t))) false] <:+:
      π.elements := by
  have hpart := (run_settled hpage).record_part hc ⟨_, hanswered⟩
  have hreceived : received r c.deltas = utf16 ((pieces.map Prod.snd).flatten ++ t) := by
    rw [hdeltas, iterSSEDeltas_reply hpieces hlast hfollows hguard h hfinished hreads,
      received_str hstr, List.flatten_append, List.flatten_singleton]
  simpa only [record, hanswered, outcomeElements, hreceived] using hpart

/-- The lines of a reply of two pieces. -/
def helloReply : List (StreamLine × Text) × StreamLine :=
  ([(⟨false, text "\x7b\"response\": \"Hello\"\x7d"⟩, text "Hello")],
    ⟨false, text "\x7b\"response\": \" world\", \"done\": true\x7d"⟩)

/-- The page of one message, with the pieces of this reply. -/
def helloMessage : List PageEvent :=
  [.send (jsText "Hi"), .responds 0 200, .delta 0 (.str (jsText "Hello")),
    .delta 0 (.str (jsText " world")), .streamEnds 0]

def helloCall : SendCall :=
  ⟨jsText "Hi", 1, .ended .answered, some 2, jsText "Hello" ++ jsText " world", 0, false,
    [.str (jsText "Hello"), .str (jsText " world")]⟩

theorem answer_on_page_helloMessage :
    ∃ π, run (ChatPage.step plainRendering) start helloMessage = some π ∧
      [.user (jsText "Hi"), .assistant (jsText "Hello world") false] <:+: π.elements := by
  have hpieces : ∀ p ∈ helloReply.1, readPiece 100 p.1 = some (p.2, false) := by decide +kernel
  have hlast : readPiece 100 helloReply.2 = some (text " world", true) := by decide +kernel
  have hfollows : Follows Stream.shortAnswer (streamGenerate 100 (fun _ => false) .closed
      (helloReply.1.map Prod.fst ++ helloReply.2 :: [])) := by
    rw [streamGenerate_reply _ _ hpieces hlast]
    exact follows_shortAnswer
  have hguard : Guarded Stream.step Stream.PutsInTime Stream.start Stream.shortAnswer := by
    apply guarded_of_forall
    simp [Stream.shortAnswer, Stream.PutsInTime]
  have hstream : (run Stream.step Stream.start Stream.shortAnswer).any (fun σ => σ.Finished) =
      true := by decide +kernel
  obtain ⟨σ, hσ, hfinished⟩ := (Option.any_eq_true ..).mp hstream
  have hreads : [body [] 7 [] σ.received].flatten = body [] 7 [] σ.received :=
    List.flatten_singleton
  have hpage : (run (ChatPage.step plainRendering) start helloMessage).map (·.calls) =
      some [helloCall] := rfl
  obtain ⟨π, hπ, hcalls⟩ := Option.map_eq_some_iff.mp hpage
  have hc : helloCall ∈ π.calls := by
    rw [hcalls]
    exact List.mem_singleton_self helloCall
  have hdeltas := iterSSEDeltas_reply hpieces hlast hfollows hguard hσ (of_decide_eq_true hfinished)
    hreads
  exact ⟨π, hπ, answer_on_page (fun _ => rfl) hpieces hlast hfollows hguard hσ
    (of_decide_eq_true hfinished) hreads hπ hc rfl hdeltas.symm⟩

end Answer

end ChatPage

end LocalGraphRag.Web
